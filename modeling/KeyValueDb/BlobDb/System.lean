import KeyValueDb.BlobDb.Mount

/-!
The device as a system: public calls, what the flash does to each of them, and power cycles.
-/

namespace KeyValueDb.BlobDb

inductive Op where
  | mount
  | unmount
  | format
  | eraseAll
  | allocId
  | update (id : UInt64) (payload : List UInt8)
  | write (id : UInt64) (offset : Nat) (buf : List UInt8)
  | delete (id : UInt64)
  | get (id : UInt64) (outSz : Nat)
  | size (id : UInt64)
  | read (id : UInt64) (offset len : Nat)
  | exists (id : UInt64)
  | maintain (budget : Nat)
  deriving Repr, DecidableEq

-- What a call hands back to the application.
inductive Value where
  | unit
  | id (n : Nat)
  | bytes (data : List UInt8)
  | size (n : Nat)
  | bool (b : Bool)
  | steps (performed : Nat) (more : Bool)
  deriving Repr, DecidableEq

-- A public call together with what the device does while it runs.
structure Call where
  op : Op
  faults : List Fault := []
  readFaults : List Bool := []
  damage : Bool := false
  patience : Nat := 0
  deriving Repr, DecidableEq

variable (cfg : Cfg)

def Op.run : Op → M Value
  | .mount => do
    mountImpl cfg
    maintReset cfg
    pure .unit
  | .unmount => do
    unmountImpl cfg
    pure .unit
  | .format => do
    formatImpl cfg
    maintReset cfg
    pure .unit
  | .eraseAll => do
    eraseAllImpl cfg
    maintReset cfg
    pure .unit
  | .allocId => do
    let id ← allocIdImpl cfg
    pure (.id id)
  | .update id payload => do
    updateImpl cfg id.toNat payload
    pure .unit
  | .write id offset buf => do
    writeImpl cfg id.toNat offset buf
    pure .unit
  | .delete id => do
    deleteImpl cfg id.toNat
    pure .unit
  | .get id outSz => do
    let data ← readRc (getImpl cfg id.toNat outSz)
    pure (.bytes data)
  | .size id => do
    let n ← readRc (sizeImpl cfg id.toNat)
    pure (.size n)
  | .read id offset len => do
    let data ← readRc (readImpl cfg id.toNat offset len)
    pure (.bytes data)
  | .exists id => do
    let b ← existsImpl cfg id.toNat
    pure (.bool b)
  | .maintain budget => do
    let r ← maintainImpl cfg budget
    pure (.steps r.1 r.2)

abbrev Reply := Out Errno Value

-- The world a call starts in.
def World.enter (w : World) (c : Call) : World :=
  { w with
    faults := c.faults
    readFaults := c.readFaults
    damage := c.damage
    patience := c.patience }

-- Power is lost: only the flash and the history stay.
def World.reboot (w : World) : World := { w with st := St.boot }

def callStep (w : World) (c : Call) : Reply × World :=
  match c.op.run cfg (w.enter c) with
  | (.cut, w') => (.cut, w'.reboot)
  | r => r

-- A run: the replies in order, and the world at the end.
def runCalls (w : World) : List Call → List Reply × World
  | [] => ([], w)
  | c :: cs =>
    let r := callStep cfg w c
    let rest := runCalls r.2 cs
    (r.1 :: rest.1, rest.2)

-- A device that has never been powered, with the given flash.
def World.fresh (flash : Flash) : World where
  flash := flash
  st := St.boot
  faults := []
  readFaults := []
  damage := false
  patience := 0
  history := []

-- A device with one bucket of 256 bytes, for runs on concrete inputs.
def smallDevice : Cfg where
  maxPayloadLen := 64
  sectorBufSize := 256
  large := false
  maxObjectLen := 200
  maxSegments := 6
  segmentLen := 0
  testMasterLogCap := 0
  autoformatOnCorrupt := false
  slotIndex := false
  slotIndexEntries := 64
  slotIndexMaxBuckets := 8
  payload_range := by decide
  sector_range := by decide
  object_range := by decide
  segments_range := by decide
  segment_range := by decide
  entries_range := by decide
  entries_pow := ⟨6, by decide, by decide⟩
  buckets_range := by decide
  pebSize := 256
  reportedAlign := 4
  nPebs := 4
  preformat := false
  replaceIsAtomic := false
  sizeBits := 32
  pebs_range := by decide
  size_range := by decide

def largeDevice : Cfg :=
  { smallDevice with large := true, nPebs := 5, pebs_range := by decide }

def strayDevice : Cfg := { largeDevice with slotIndex := true }

-- The build cannot reach objects of the size it is configured for.
def unreachingDevice : Cfg :=
  { largeDevice with maxObjectLen := 5000, object_range := by decide }

def cappedDevice : Cfg :=
  { smallDevice with maxPayloadLen := 32, payload_range := by decide, object_range := by decide }

-- Payloads of 106 bytes pass the geometry check on sectors of 256, and a slot of one takes 128 bytes
-- where the write unit is 32.
def raggedDevice : Cfg :=
  { smallDevice with
    maxPayloadLen := 106, reportedAlign := 32, payload_range := by decide, object_range := by decide }

def crowdedDevice : Cfg := { smallDevice with
  slotIndexEntries := 131072
  entries_range := by decide
  entries_pow := ⟨17, by decide, by decide⟩ }

def blankFlash : Flash := fun _ => blank

end KeyValueDb.BlobDb
