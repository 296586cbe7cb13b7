import KeyValueDb.BlobDb.Layout

/-!
The RAM slot index: an open-addressed hash table from ids to slot offsets with linear probing and
backward-shift deletion, and one append cursor per bucket. In a build without the index every call
does nothing and every lookup answers that it does not know.
-/

namespace KeyValueDb.BlobDb

structure SlotIndex where
  ids : Nat → Nat
  offs : Nat → Nat
  used : Nat
  cursor : Nat → Nat
  bcnt : Nat → Nat
  nBuckets : Nat

namespace SlotIndex

variable (cfg : Cfg)

def set (f : Nat → Nat) (i v : Nat) : Nat → Nat := fun j => if j = i then v else f j

def empty (nBuckets : Nat) : SlotIndex where
  ids := fun _ => 0
  offs := fun _ => 0
  used := 0
  cursor := fun _ => 0
  bcnt := fun _ => 0
  nBuckets := nBuckets

def cap : Nat := cfg.slotIndexEntries

def maxFill : Nat := cap cfg - cap cfg / 8

def home (id : Nat) : Nat := u64 (id * 0x9e3779b97f4a7c15) / 2 ^ 32 % cap cfg

def next (i : Nat) : Nat := (i + 1) % cap cfg

def bucketOf (t : SlotIndex) (id : Nat) : Nat := id % t.nBuckets

def findFrom (t : SlotIndex) (id : Nat) : Nat → Nat → Option Nat
  | 0, _ => none
  | n + 1, i =>
    if t.ids i = id then some i
    else if t.ids i = 0 then none
    else findFrom t id n (next cfg i)

def find (t : SlotIndex) (id : Nat) : Option Nat := findFrom cfg t id (cap cfg) (home cfg id)

-- Whether the entry in cell j, at home in cell h, may stay although cell i is now free.
def stays (i j h : Nat) : Bool :=
  if i ≤ j then i < h && h ≤ j else i < h || h ≤ j

-- Close the gap at i, looking at the cells from j on.
def closeGap : Nat → SlotIndex → Nat → Nat → SlotIndex
  | 0, t, _, _ => t
  | n + 1, t, i, j =>
    let j := next cfg j
    if t.ids j = 0 then t
    else if stays i j (home cfg (t.ids j)) then closeGap n t i j
    else
      let t := { t with
        ids := set (set t.ids i (t.ids j)) j 0
        offs := set t.offs i (t.offs j) }
      closeGap n t j j

def removeAt (t : SlotIndex) (i : Nat) : SlotIndex :=
  let b := t.bucketOf (t.ids i)
  let t := { t with
    bcnt := set t.bcnt b ((t.bcnt b + 65535) % 65536)
    ids := set t.ids i 0
    used := (t.used + (2 ^ 32 - 1)) % 2 ^ 32 }
  closeGap cfg (cap cfg) t i i

-- The cell a put of id ends in, and whether the id is already there.
def putCell (t : SlotIndex) (id : Nat) : Nat → Nat → Nat × Bool
  | 0, i => (i, false)
  | n + 1, i =>
    if t.ids i = id then (i, true)
    else if t.ids i = 0 then (i, false)
    else putCell t id n (next cfg i)

def put (t : SlotIndex) (id off : Nat) : SlotIndex :=
  let (i, present) := putCell cfg t id (cap cfg) (home cfg id)
  if present then { t with offs := set t.offs i off }
  else if maxFill cfg ≤ t.used then t
  else
    let b := t.bucketOf id
    { t with
      ids := set t.ids i id
      offs := set t.offs i off
      used := (t.used + 1) % 2 ^ 32
      bcnt := set t.bcnt b ((t.bcnt b + 1) % 65536) }

def drop (t : SlotIndex) (id : Nat) : SlotIndex :=
  match find cfg t id with
  | some i => removeAt cfg t i
  | none => t

def on (t : SlotIndex) (bid : Nat) : Bool := t.nBuckets != 0 && bid < t.nBuckets

def reset (nBuckets : Nat) : SlotIndex :=
  if cfg.slotIndexMaxBuckets < nBuckets then empty 0 else empty nBuckets

def disable : SlotIndex := empty 0

-- A removal can pull a later cell back into cell i, so i is looked at again after one.
def forgetFrom (bid : Nat) : Nat → SlotIndex → Nat → SlotIndex
  | 0, t, _ => t
  | n + 1, t, i =>
    if i < cap cfg ∧ t.bcnt bid ≠ 0 then
      if t.ids i ≠ 0 ∧ t.bucketOf (t.ids i) = bid then forgetFrom bid n (removeAt cfg t i) i
      else forgetFrom bid n t (i + 1)
    else t

def forget (t : SlotIndex) (bid : Nat) : SlotIndex :=
  if t.on bid then
    forgetFrom cfg bid (2 * cap cfg) { t with cursor := set t.cursor bid 0 } 0
  else t

def begin (t : SlotIndex) (bid dataOff : Nat) : SlotIndex :=
  if t.on bid then
    let t := forget cfg t bid
    { t with cursor := set t.cursor bid dataOff }
  else t

def note (t : SlotIndex) (bid id off size : Nat) (tombstone : Bool) : SlotIndex :=
  if !t.on bid || t.cursor bid == 0 then t
  else if off ≠ t.cursor bid then forget cfg t bid
  else
    let t := { t with cursor := set t.cursor bid ((off + size) % 2 ^ 32) }
    if tombstone then drop cfg t id else put cfg t id off

def learn (t : SlotIndex) (bid id : Nat) (off : Option Nat) (cursor : Nat) : SlotIndex :=
  if !t.on bid || cursor == 0 then t
  else if t.cursor bid ≠ 0 ∧ t.cursor bid ≠ cursor then forget cfg t bid
  else
    let t := if t.cursor bid = 0 then { t with cursor := set t.cursor bid cursor } else t
    match off with
    | some o => put cfg t id o
    | none => t

def lookup (t : SlotIndex) (bid id : Nat) : Option (Nat × Nat) :=
  if !t.on bid || t.cursor bid == 0 then none
  else
    match find cfg t id with
    | some i => some (t.offs i, t.cursor bid)
    | none => none

def cursorOf (t : SlotIndex) (bid : Nat) : Option Nat :=
  if !t.on bid || t.cursor bid == 0 then none else some (t.cursor bid)

end SlotIndex

end KeyValueDb.BlobDb
