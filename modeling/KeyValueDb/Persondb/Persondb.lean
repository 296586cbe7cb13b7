import KeyValueDb.Containers.MapStore
import KeyValueDb.Persondb.PersonCbor

/-!
Persons and the cards they hold, in two maps that no transaction ties together: from the id of a
person to the record, which lists the cards, and from a card to the id of who holds it.
-/

namespace KeyValueDb.Persondb

open Containers Kvdb

-- The roots that an open resolves.
structure Db where
  peopleRoot : Nat
  credRoot : Nat

def hexDigit (n : Nat) : UInt8 := UInt8.ofNat (if n < 10 then 48 + n else 55 + n)

-- "p%08X"
def personKey (id : UInt32) : List UInt8 :=
  112 :: [7, 6, 5, 4, 3, 2, 1, 0].map fun i => hexDigit (id.toNat / 16 ^ i % 16)

def cardValid (card : CStr) : Bool := decide (0 < card.chars.length ∧ card.chars.length ≤ cardLen)

def permValid (perm : CStr) : Bool := decide (0 < perm.chars.length ∧ perm.chars.length ≤ permMax)

-- persondb_check's answers
inductive Decision where
  | granted | denied | unknownCard | expired
  deriving Repr, DecidableEq

variable (Z : Zcbor) (db : Db)

def credPut (card : CStr) (personId : UInt32) : S Unit := do
  let bytes ← Proc.ofExcept (credCborEncode Z personId credCborMax)
  mapSet db.credRoot card.chars bytes

def personStore (p : Person) : S Unit := do
  let bytes ← Proc.ofExcept (personCborEncode Z p personCborMax)
  mapSet db.peopleRoot (personKey p.id) bytes

def credDel (card : CStr) : S Unit := mapDel db.credRoot card.chars

-- A delete for which it is no error that there was nothing.
def credDrop (card : CStr) : S Unit := do
  match ← Proc.attempt (credDel db card) with
  | .ok _ => pure ()
  | .error e => if e = Errno.ENOENT then pure () else Proc.fail e

def personGet (id : UInt32) : S Person := do
  let bytes ← mapGet db.peopleRoot (personKey id) personCborMax
  Proc.ofExcept (personCborDecode Z bytes)

-- A lookup for which it is no error that there was nothing.
def personFind (id : UInt32) : S (Option Person) := do
  match ← Proc.attempt (personGet Z db id) with
  | .ok p => pure (some p)
  | .error e => if e = Errno.ENOENT then pure none else Proc.fail e

def cardOwner (card : CStr) : S UInt32 := do
  let bytes ← mapGet db.credRoot card.chars credCborMax
  Proc.ofExcept (credCborDecode Z bytes)

def ownerFind (card : CStr) : S (Option UInt32) := do
  match ← Proc.attempt (cardOwner Z db card) with
  | .ok id => pure (some id)
  | .error e => if e = Errno.ENOENT then pure none else Proc.fail e

def dropCards : List CStr → S Unit
  | [] => pure ()
  | card :: cards => do
    credDrop db card
    dropCards cards

def indexCards (id : UInt32) : List CStr → S Unit
  | [] => pure ()
  | card :: cards => do
    credPut Z db card id
    indexCards id cards

-- The cards of the record before that the new one does not list.
def withdrawn (old : Option Person) (p : Person) : List CStr :=
  ((old.map Person.cards).getD []).filter fun card => decide (card ∉ p.cards)

def personPut (p : Person) : S Unit :=
  if cardsMax < p.cards.length ∨ permsMax < p.perms.length then Proc.fail Errno.EINVAL
  else if p.cards.all cardValid = false then Proc.fail Errno.EINVAL
  else do
    let old ← personFind Z db p.id
    dropCards db (withdrawn old p)
    personStore Z db p
    indexCards Z db p.id p.cards

def personDelete (id : UInt32) : S Unit := do
  let p ← personGet Z db id
  dropCards db p.cards
  mapDel db.peopleRoot (personKey id)

-- None of the cards is held; `seen` are the ones before them in the record.
def cardsFree (seen : List CStr) : List CStr → S Unit
  | [] => pure ()
  | card :: cards =>
    if card ∈ seen then Proc.fail Errno.EINVAL
    else do
      match ← ownerFind Z db card with
      | some _ => Proc.fail Errno.EEXIST
      | none => cardsFree (card :: seen) cards

def personAdd (p : Person) : S Unit :=
  if p.name.chars = [] ∨ p.validUntil ≤ p.validFrom then Proc.fail Errno.EINVAL
  else do
    match ← personFind Z db p.id with
    | some _ => Proc.fail Errno.EEXIST
    | none => do
      cardsFree Z db [] (p.cards.take cardsMax)
      personPut Z db p

def cardAssign (personId : UInt32) (card : CStr) : S Unit :=
  if cardValid card = false then Proc.fail Errno.EINVAL
  else do
    let owner ← ownerFind Z db card
    if owner.any (· != personId) then Proc.fail Errno.EEXIST
    else do
      let p ← personGet Z db personId
      if card ∈ p.cards then credPut Z db card personId
      else if cardsMax ≤ p.cards.length then Proc.fail Errno.ENOSPC
      else do
        personStore Z db { p with cards := p.cards ++ [card] }
        -- not skipped when the record lists the card: a redo has to finish it
        credPut Z db card personId

def cardRevokeFrom (personId : UInt32) (card : CStr) : S Unit :=
  if cardValid card = false then Proc.fail Errno.EINVAL
  else do
    credDrop db card
    let p ← personGet Z db personId
    if card ∉ p.cards then pure ()
    else personStore Z db { p with cards := p.cards.filter (· ≠ card) }

def cardRevoke (card : CStr) : S Unit :=
  if cardValid card = false then Proc.fail Errno.EINVAL
  else do
    let personId ← cardOwner Z db card
    cardRevokeFrom Z db personId card

def permissionGrant (personId : UInt32) (perm : CStr) : S Unit :=
  if permValid perm = false then Proc.fail Errno.EINVAL
  else do
    let p ← personGet Z db personId
    if perm ∈ p.perms then pure ()
    else if permsMax ≤ p.perms.length then Proc.fail Errno.ENOSPC
    else personStore Z db { p with perms := p.perms ++ [perm] }

def permissionRevoke (personId : UInt32) (perm : CStr) : S Unit :=
  if permValid perm = false then Proc.fail Errno.EINVAL
  else do
    let p ← personGet Z db personId
    if perm ∉ p.perms then Proc.fail Errno.ENOENT
    else personStore Z db { p with perms := p.perms.filter (· ≠ perm) }

def personRename (personId : UInt32) (name : CStr) : S Unit :=
  if name.chars.length = 0 ∨ nameMax < name.chars.length then Proc.fail Errno.EINVAL
  else do
    let p ← personGet Z db personId
    if p.name = name then pure () else personStore Z db { p with name := name }

def personSetValidity (personId validFrom validUntil : UInt32) : S Unit :=
  if validUntil ≤ validFrom then Proc.fail Errno.EINVAL
  else do
    let p ← personGet Z db personId
    if p.validFrom = validFrom ∧ p.validUntil = validUntil then pure ()
    else personStore Z db { p with validFrom := validFrom, validUntil := validUntil }

-- With the decision, the person behind the card, if there is one.
def check (card perm : CStr) (now : UInt32) : S (Decision × Option Person) := do
  match ← ownerFind Z db card with
  | none => pure (.unknownCard, none)
  | some personId =>
    match ← personFind Z db personId with
    | none => pure (.unknownCard, none)
    | some p =>
      if now < p.validFrom ∨ p.validUntil ≤ now then pure (.expired, some p)
      else if perm ∈ p.perms then pure (.granted, some p)
      else pure (.denied, some p)

end KeyValueDb.Persondb
