import KeyValueDb.Lib.Proc
import KeyValueDb.BlobDb.SlotIndex

/-!
The state of a running device and the storage seam. A store write can be cut short or can report an
error after part of its bytes landed, an erase after part of the block was erased. The history of a
device keeps every write and erase with the flash before and after it, and every id handed out.
-/

namespace KeyValueDb.BlobDb

abbrev Flash := Nat → Sector

-- The RAM state of the library. A power cycle leaves `St.boot`.
structure St where
  mounted : Bool
  activeMaster : Nat
  rotGen : Nat
  logNext : Nat
  logFailed : Bool
  ceilingReset : Bool
  incompat : Nat
  roCompat : Nat
  compat : Nat
  fuses : Nat
  nextId : Nat
  nextIdHint : Nat
  segOwner : Nat
  wedged : Bool
  maintStart : Nat
  maintScanned : Nat
  segLen : Nat
  segMax : Nat
  -- the cached index record: its owner (0: none), header, and segment table
  idxId : Nat
  idxHdr : IndexHdr
  segA : List Nat
  sidx : SlotIndex

def St.boot : St where
  mounted := false
  activeMaster := 0
  rotGen := 0
  logNext := 0
  logFailed := false
  ceilingReset := false
  incompat := 0
  roCompat := 0
  compat := 0
  fuses := 0
  nextId := 0
  nextIdHint := 0
  segOwner := 0
  wedged := false
  maintStart := 0
  maintScanned := 0
  segLen := 0
  segMax := 0
  idxId := 0
  idxHdr := ⟨[], 0, 0, 0, 0, 0, 0⟩
  segA := []
  sidx := SlotIndex.empty 0

/--
What the device does with one store write or erase. `part` says how much of it took effect: the
first `part` bytes of a write, the bytes below `part` of an erase or, if `upper`, those from `part`
on. An atomic replace takes effect as a whole or, if `part` is 0, not at all.
-/
inductive Fault where
  | none
  | error (part : Nat) (upper : Bool)
  | cut (part : Nat) (upper : Bool)
  deriving Repr, DecidableEq

inductive Request where
  | write (off : Nat) (data : List UInt8)
  | erase
  | replace (data : List UInt8)
  deriving Repr, DecidableEq

-- One write or erase of a sector, with the flash before it and the RAM state it was made in.
structure Mutation where
  sector : Nat
  request : Request
  fault : Fault
  before : Flash
  st : St

-- What the history of a device keeps: its writes and erases, and the ids it handed out.
inductive Event where
  | mutation (m : Mutation)
  | alloc (id : Nat)

structure World where
  flash : Flash
  st : St
  -- what the coming store writes and erases meet; the ones past the end succeed
  faults : List Fault
  -- which of the coming reads fail
  readFaults : List Bool
  -- whether the last open of the backend found damage on a master sector
  damage : Bool
  -- how many steps the sweep of one bucket may take before power is lost
  patience : Nat
  history : List Event

-- The history of a device only grows.
instance : Preorder World where
  le w w' := w.history <:+ w'.history
  le_refl _ := List.suffix_rfl
  le_trans _ _ _ h1 h2 := h1.trans h2

abbrev M := Proc World Errno

namespace Request

-- The sector a request leaves when all of it takes effect.
def whole (f : Sector) : Request → Sector
  | .write off data => program f off data
  | .erase => blank
  | .replace data => image data

-- The sector it leaves when only a part does.
def partly (f : Sector) (part : Nat) (upper : Bool) : Request → Sector
  | .write off data => program f off (data.take part)
  | .erase => if upper then eraseFrom f part else eraseBelow f part
  | .replace data => if part = 0 then f else image data

def result (f : Sector) (r : Request) : Fault → Sector
  | .none => r.whole f
  | .error part upper => r.partly f part upper
  | .cut part upper => r.partly f part upper

end Request

def Flash.set (fl : Flash) (sector : Nat) (f : Sector) : Flash :=
  fun s => if s = sector then f else fl s

-- The flash after it.
def Mutation.after (m : Mutation) : Flash :=
  m.before.set m.sector (m.request.result (m.before m.sector) m.fault)

namespace World

def nextFault (w : World) : Fault := w.faults.headD .none

-- The world after a request to a sector has met the next fault.
def mutate (w : World) (sector : Nat) (r : Request) : World :=
  { w with
    flash := w.flash.set sector (r.result (w.flash sector) w.nextFault)
    faults := w.faults.tail
    history := .mutation ⟨sector, r, w.nextFault, w.flash, w.st⟩ :: w.history }

end World

-- How a request ends that meets a fault.
def Fault.outcome : Fault → Out Errno Unit
  | .none => .ok ()
  | .error _ _ => .err Errno.EIO
  | .cut _ _ => .cut

def Fault.isError : Fault → Bool
  | .error _ _ => true
  | _ => false

def storeMutate (sector : Nat) (r : Request) : M Unit where
  val w := (w.nextFault.outcome, w.mutate sector r)
  property _ := List.suffix_cons _ _

-- A read hands over `f` of the flash, unless it fails.
def readFlash {α : Type} (f : Flash → α) : M α where
  val w :=
    (if w.readFaults.headD false then .err Errno.EIO else .ok (f w.flash),
      { w with readFaults := w.readFaults.tail })
  property _ := List.suffix_rfl

def storeRead (sector off len : Nat) : M (List UInt8) :=
  readFlash fun flash => bytesAt (flash sector) off len

def storeWrite (sector off : Nat) (data : List UInt8) : M Unit :=
  storeMutate sector (.write off data)

def storeErase (sector : Nat) : M Unit := storeMutate sector .erase

def storeReplace (cfg : Cfg) (sector : Nat) (data : List UInt8) : M Unit :=
  if cfg.replaceIsAtomic then storeMutate sector (.replace data)
  else do
    storeErase sector
    storeWrite sector 0 data

-- Erase `n` sectors in ascending order, as one erase of the whole device does.
def storeEraseAll : Nat → Nat → M Unit
  | 0, _ => pure ()
  | n + 1, sector => do
    storeErase sector
    storeEraseAll n (sector + 1)

def getSt : M St := Proc.read World.st

def modifySt (f : St → St) : M Unit :=
  Proc.modify (fun w => { w with st := f w.st }) fun _ => List.suffix_rfl

def noteAlloc (id : Nat) : M Unit :=
  Proc.modify (fun w => { w with history := .alloc id :: w.history }) fun _ =>
    List.suffix_cons _ _

-- The slot index exists only in a build that has it.
def modifySidx (cfg : Cfg) (f : SlotIndex → SlotIndex) : M Unit :=
  if cfg.slotIndex then modifySt fun st => { st with sidx := f st.sidx } else pure ()

def sidxReset (cfg : Cfg) : M Unit := modifySidx cfg fun _ => SlotIndex.reset cfg cfg.nBuckets

def sidxDisable (cfg : Cfg) : M Unit := modifySidx cfg fun _ => SlotIndex.disable

def sidxForget (cfg : Cfg) (bid : Nat) : M Unit := modifySidx cfg fun t => t.forget cfg bid

def sidxBegin (cfg : Cfg) (bid dataOff : Nat) : M Unit :=
  modifySidx cfg fun t => t.begin cfg bid dataOff

def sidxNote (cfg : Cfg) (bid id off size : Nat) (tombstone : Bool) : M Unit :=
  modifySidx cfg fun t => t.note cfg bid id off size tombstone

def sidxLearn (cfg : Cfg) (bid id : Nat) (off : Option Nat) (cursor : Nat) : M Unit :=
  modifySidx cfg fun t => t.learn cfg bid id off cursor

def sidxLookup (cfg : Cfg) (bid id : Nat) : M (Option (Nat × Nat)) :=
  if cfg.slotIndex then Proc.read fun w => w.st.sidx.lookup cfg bid id else pure none

def sidxCursor (cfg : Cfg) (bid : Nat) : M (Option Nat) :=
  if cfg.slotIndex then Proc.read fun w => w.st.sidx.cursorOf bid else pure none

-- The index cache is compiled in with large payloads only.
def idxInvalidate (cfg : Cfg) : M Unit :=
  if cfg.large then modifySt fun st => { st with idxId := 0 } else pure ()

end KeyValueDb.BlobDb
