import KeyValueDb.Lib.Segments
import KeyValueDb.Containers.Logring

/-!
What a log is on flash and in RAM: the chain of its live entries, the root that leads to it, the run
an eviction has cut off, and the handle.
-/

namespace KeyValueDb.Containers

/-! Reading back what was written -/

theorem u32At_eq {buf : List UInt8} {off : Nat} {n : UInt32} (h : fieldAt buf off 4 = n.toNat) :
    u32At buf off = n := by
  rw [u32At, h]
  exact UInt32.ofNat_toNat

@[simp]
theorem entryImage_length (nextId : Nat) (rec : List UInt8) :
    (entryImage nextId rec).length = clogEntryHdr + rec.length := by
  simp only [entryImage, List.length_append, leBytes_length, clogEntryHdr]

theorem decodeEntry_entryImage {nextId : Nat} {rec : List UInt8} (hid : nextId < 2 ^ 64)
    (hrec : rec.length < 2 ^ 16) : decodeEntry (entryImage nextId rec) = .ok (nextId, rec) := by
  have hnext : fieldAt (entryImage nextId rec) 0 8 = nextId := by
    rw [entryImage, List.append_assoc]
    exact fieldAt_leBytes nextId 8 _ (by omega)
  have hlen : fieldAt (entryImage nextId rec) 8 2 = rec.length := by
    rw [entryImage, List.append_assoc, fieldAt_append _ _ 8 0 2 (by simp)]
    exact fieldAt_leBytes rec.length 2 _ (by omega)
  have hdrop : (entryImage nextId rec).drop clogEntryHdr = rec := by
    rw [entryImage, List.drop_append_of_le_length (by simp [clogEntryHdr]),
      List.drop_of_length_le (by simp [clogEntryHdr]), List.nil_append]
  rw [decodeEntry, if_neg (by simp), if_neg (by simp [hlen]), hnext, hdrop]

@[simp]
theorem rootImage_length (r : ClogRoot) : (rootImage r).length = clogRootLen := by
  simp [rootImage, clogMagic, clogRootLen]

-- The ids in a root fit their fields.
def ClogRoot.Fits (r : ClogRoot) : Prop :=
  r.waypointId < 2 ^ 64 ∧ r.headId < 2 ^ 64 ∧ r.evictFrom < 2 ^ 64 ∧ r.evictTo < 2 ^ 64

theorem decodeRoot_rootImage {r : ClogRoot} (h : r.Fits) : decodeRoot (rootImage r) = .ok r := by
  obtain ⟨hw, hh, hf, ht⟩ := h
  have hmagic : (rootImage r).take 4 = clogMagic := by
    simp only [rootImage, List.append_assoc]
    rw [List.take_append_of_le_length (by decide)]
    rfl
  have hver : fieldAt (rootImage r) 4 1 = clogVersion := by
    simp only [rootImage, List.append_assoc]
    rw [fieldAt_append _ _ 4 0 1 (by decide)]
    exact fieldAt_leBytes _ 1 _ (by decide)
  have hskip : ∀ rest : List UInt8, ∀ k w,
      fieldAt (clogMagic ++ (leBytes clogVersion 1 ++ (leBytes 0 1 ++ (leBytes 0 2 ++ rest))))
        (8 + k) w = fieldAt rest k w := by
    intro rest k w
    rw [← List.append_assoc, ← List.append_assoc, ← List.append_assoc,
      fieldAt_append _ _ (8 + k) k w (by simp [clogMagic])]
  have hlt : ∀ n : UInt32, n.toNat < 256 ^ 4 := fun n => by
    have := n.toNat_lt
    omega
  have h0 : u32At (rootImage r) 8 = r.epoch := by
    apply u32At_eq
    simp only [rootImage, List.append_assoc]
    rw [hskip _ 0]
    exact fieldAt_leBytes _ 4 _ (hlt _)
  have h1 : u32At (rootImage r) 12 = r.capacityBytes := by
    apply u32At_eq
    simp only [rootImage, List.append_assoc]
    rw [hskip _ 4, fieldAt_append _ _ 4 0 4 (by simp)]
    exact fieldAt_leBytes _ 4 _ (hlt _)
  have h2 : u32At (rootImage r) 16 = r.liveBytes := by
    apply u32At_eq
    simp only [rootImage, List.append_assoc]
    rw [hskip _ 8, fieldAt_append _ _ 8 4 4 (by simp), fieldAt_append _ _ 4 0 4 (by simp)]
    exact fieldAt_leBytes _ 4 _ (hlt _)
  have h3 : u32At (rootImage r) 20 = r.count := by
    apply u32At_eq
    simp only [rootImage, List.append_assoc]
    rw [hskip _ 12, fieldAt_append _ _ 12 8 4 (by simp), fieldAt_append _ _ 8 4 4 (by simp),
      fieldAt_append _ _ 4 0 4 (by simp)]
    exact fieldAt_leBytes _ 4 _ (hlt _)
  have hwords : ∀ rest : List UInt8, ∀ k,
      fieldAt (leBytes r.epoch.toNat 4 ++ (leBytes r.capacityBytes.toNat 4 ++
        (leBytes r.liveBytes.toNat 4 ++ (leBytes r.count.toNat 4 ++ rest)))) (16 + k) 8 =
        fieldAt rest k 8 := by
    intro rest k
    rw [← List.append_assoc, ← List.append_assoc, ← List.append_assoc,
      fieldAt_append _ _ (16 + k) k 8 (by simp)]
  have h4 : fieldAt (rootImage r) 24 8 = r.waypointId := by
    simp only [rootImage, List.append_assoc]
    rw [hskip _ 16, hwords _ 0]
    exact fieldAt_leBytes _ 8 _ (by omega)
  have h5 : fieldAt (rootImage r) 32 8 = r.headId := by
    simp only [rootImage, List.append_assoc]
    rw [hskip _ 24, hwords _ 8, fieldAt_append _ _ 8 0 8 (by simp)]
    exact fieldAt_leBytes _ 8 _ (by omega)
  have h6 : fieldAt (rootImage r) 40 8 = r.evictFrom := by
    simp only [rootImage, List.append_assoc]
    rw [hskip _ 32, hwords _ 16, fieldAt_append _ _ 16 8 8 (by simp),
      fieldAt_append _ _ 8 0 8 (by simp)]
    exact fieldAt_leBytes _ 8 _ (by omega)
  have h7 : fieldAt (rootImage r) 48 8 = r.evictTo := by
    simp only [rootImage, List.append_assoc]
    rw [hskip _ 40, hwords _ 24, fieldAt_append _ _ 24 16 8 (by simp),
      fieldAt_append _ _ 16 8 8 (by simp), fieldAt_append _ _ 8 0 8 (by simp)]
    rw [← List.append_nil (leBytes r.evictTo 8)]
    exact fieldAt_leBytes _ 8 _ (by omega)
  rw [decodeRoot, if_neg (by simp), if_neg (by simp [hmagic, hver]), h0, h1, h2, h3, h4, h5, h6, h7]

/-! The chain of live entries -/

abbrev LogEntry := Nat × List UInt8

variable (cfg : LogCfg)

-- The record of the entry at `id`, and where it points.
def entryNode (b : Blobs) (id : Nat) : Option (List UInt8 × Nat) :=
  match b id with
  | none => none
  | some buf =>
    if buf.length ≤ cfg.maxPayload then
      match decodeEntry buf with
      | .ok e => some (e.2, e.1)
      | .error _ => none
    else none

-- The live entries of a log, oldest first, and the id reserved for the next one.
structure LogView where
  entries : List LogEntry
  frontier : Nat

namespace LogView

def first (v : LogView) : Nat := startOf v.entries v.frontier

-- 0 if the log is empty.
def headId (v : LogView) : Nat := startOf v.entries 0

def tailId (v : LogView) : Nat :=
  match v.entries.getLast? with
  | none => 0
  | some e => e.1

def bytes (v : LogView) : Nat := (v.entries.map fun e => e.2.length).sum

def drop (v : LogView) (n : Nat) : LogView := ⟨v.entries.drop n, v.frontier⟩

-- The view after the reserved id was bound to a record, `r2` being reserved next.
def bind (v : LogView) (rec : List UInt8) (r2 : Nat) : LogView :=
  ⟨v.entries ++ [(v.frontier, rec)], r2⟩

end LogView

structure Chained (b : Blobs) (v : LogView) : Prop where
  segment : Segment (entryNode cfg b) v.first v.entries v.frontier
  free : b v.frontier = none

-- What a root says of the log it leads to. Before the first checkpoint it only knows where the log
-- starts; afterwards it counts the entries up to its waypoint.
inductive ClogRoot.Describes (r : ClogRoot) (v : LogView) : Prop where
  | fresh (hhead : r.headId = 0) (hway : r.waypointId = v.first)
  | counted (pre : List LogEntry) (w : LogEntry) (post : List LogEntry)
      (hsplit : v.entries = pre ++ w :: post) (hhead : r.headId = v.first)
      (hpos : r.headId ≠ 0) (hway : r.waypointId = w.1)
      (hcount : r.count = UInt32.ofNat (pre.length + 1))
      (hbytes : r.liveBytes =
        UInt32.ofNat ((pre.map fun e => e.2.length).sum + w.2.length))

-- What is left of the run an eviction has cut off: the entries before the first deleted one.
structure Detached (root : Nat) (b : Blobs) (v : LogView) (run : List LogEntry) (r : ClogRoot) :
    Prop where
  none_left : r.evictFrom = 0 → run = []
  short : run.length ≤ cfg.k
  left : r.evictFrom ≠ 0 → root < r.evictFrom ∧ r.evictTo ≤ v.first ∧
    ∃ stop, Segment (entryNode cfg b) r.evictFrom run stop ∧
      (stop = r.evictTo ∨ b stop = none ∧ stop < r.evictTo)

-- An error that leaves the log and its handle in step: a delete, a new blob that is refused, or a
-- root that neither evicts nor empties.
def Event.Harmless : Event → Prop
  | .edit e =>
    ∀ err landed, e.turn = .error err landed → e.data = none ∨ e.before e.id = none ∨
      ∃ data r, e.data = some data ∧ decodeRoot data = .ok r ∧ r.headId ≠ 0 ∧ r.evictFrom = 0
  | .readError _ _ => False

def Calm (hist : List Event) : Prop := ∀ ev ∈ hist, ev.Harmless

-- A delete of `id` has failed.
def Undeleted (hist : List Event) (id : Nat) : Prop :=
  ∃ e err landed, Event.edit e ∈ hist ∧ e.id = id ∧ e.data = none ∧ e.turn = .error err landed

-- No blob above the root but the entries of the chain and of the run, and what could not be deleted.
def Clean (root : Nat) (b : Blobs) (v : LogView) (run : List LogEntry) (hist : List Event) : Prop :=
  ∀ id, root < id → b id ≠ none →
    (∃ rec, (id, rec) ∈ v.entries) ∨ (∃ rec, (id, rec) ∈ run) ∨ Undeleted hist id

-- What stays the same of a log.
structure LogId where
  root : Nat
  epoch : UInt32
  capacityBytes : UInt32

-- What the flash holds of a log.
structure OnFlash (g : LogId) (v : LogView) (run : List LogEntry) (r : ClogRoot) (b : Blobs)
    (top used : Nat) (hist : List Event) : Prop where
  root_pos : 0 < g.root
  root_bound : b g.root = some (rootImage r)
  fits : r.Fits
  same_epoch : r.epoch = g.epoch
  same_capacity : r.capacityBytes = g.capacityBytes
  chain : Chained cfg b v
  above : g.root < v.first
  below : v.frontier ≤ top
  top_lt : top < 2 ^ 64
  describes : r.Describes v
  detached : Detached cfg g.root b v run r
  ids : ∀ id, b id ≠ none → id ≤ top
  tallied : Tallied cfg.toStoreCfg b used
  clean : Calm hist → Clean g.root b v run hist

-- What the handle says of a log.
structure Mirrors (h : Logring) (v : LogView) : Prop where
  head : h.headId = v.headId
  tail : h.tailId = v.tailId
  next : h.nextFree = v.frontier
  count : h.count = UInt32.ofNat v.entries.length
  bytes : h.liveBytes = UInt32.ofNat v.bytes

-- A handle can be ahead of the flash: it has evicted more, or it has started a new chain.
def Ahead (d v : LogView) : Prop :=
  (∃ pre, d.entries = pre ++ v.entries ∧ d.frontier = v.frontier) ∨ d.frontier < v.first

end KeyValueDb.Containers
