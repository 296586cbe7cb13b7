import KeyValueDb.Persondb.Tables

/-!
A card never leads to someone who does not list it: in every state of the store, also in those
between the writes of an operation, the index names only persons whose record lists the card.
-/

namespace KeyValueDb.Persondb

open Containers Kvdb

-- A record is kept under its own id, and the index is backed by the records.
structure Sound (Z : Zcbor) (people cred : KvMap) : Prop where
  own : ∀ id p, record Z people id = some p → p.id = id
  backed : ∀ card id, holder Z cred card = some id →
    ∃ p, record Z people id = some p ∧ card ∈ p.cards

variable {Z : Zcbor} {db : Db} {people cred : KvMap} {H : Hypothesis MapStore}

namespace Sound

theorem drop (h : Sound Z people cred) (card : CStr) :
    Sound Z people (Function.update cred card.chars none) :=
  ⟨h.own, fun card' id hid => h.backed card' id (holder_drop hid).2⟩

theorem cleared (h : Sound Z people cred) (cards : List CStr) :
    Sound Z people (cleared cred cards) :=
  ⟨h.own, fun card' id hid => h.backed card' id (holder_cleared hid).2⟩

theorem put (h : Sound Z people cred) {card : CStr} {id : UInt32} {p : Person}
    (hp : record Z people id = some p) (hc : card ∈ p.cards) :
    Sound Z people (Function.update cred card.chars (some (credBytes Z id))) := by
  refine ⟨h.own, fun card' id' hid => ?_⟩
  by_cases he : card' = card
  . subst he
    rw [holder_put] at hid
    cases hid
    exact ⟨p, hp, hc⟩
  . rw [holder_update_ne he] at hid
    exact h.backed card' id' hid

-- The new record lists every card that the index has for this person.
theorem store (h : Sound Z people cred) {p : Person} (hp : p.Shaped)
    (hcards : ∀ card, holder Z cred card = some p.id → card ∈ p.cards) :
    Sound Z (stored Z people p) cred := by
  constructor
  . intro id q hq
    by_cases he : id = p.id
    . subst he
      rw [record_stored hp] at hq
      cases hq
      rfl
    . rw [record_stored_ne he] at hq
      exact h.own id q hq
  . intro card id hid
    by_cases he : id = p.id
    . subst he
      exact ⟨p.clip, record_stored hp, hp.clip_cards ▸ hcards card hid⟩
    . obtain ⟨q, hq, hc⟩ := h.backed card id hid
      exact ⟨q, by rw [record_stored_ne he, hq], hc⟩

-- The record of this person changes, and keeps its cards.
theorem restore (h : Sound Z people cred) {id : UInt32} {p q : Person}
    (hp : record Z people id = some p) (hq : q.Shaped) (hid : q.id = p.id)
    (hcards : ∀ card ∈ p.cards, card ∈ q.cards) : Sound Z (stored Z people q) cred := by
  refine h.store hq fun card hc => ?_
  obtain ⟨p', hp', hmem⟩ := h.backed card q.id hc
  rw [hid, h.own id p hp, hp] at hp'
  cases hp'
  exact hcards card hmem

-- No card of this person is in the index.
theorem erase (h : Sound Z people cred) {id : UInt32}
    (hno : ∀ card, holder Z cred card ≠ some id) :
    Sound Z (Function.update people (personKey id) none) cred := by
  constructor
  . intro id' p hp
    by_cases he : id' = id
    . subst he
      rw [record, Function.update_self] at hp
      cases hp
    . rw [record_erased_ne he] at hp
      exact h.own id' p hp
  . intro card id' hid
    have he : id' ≠ id := fun he => hno card (he ▸ hid)
    obtain ⟨p, hp, hc⟩ := h.backed card id' hid
    exact ⟨p, by rw [record_erased_ne he, hp], hc⟩

end Sound

-- The maps are sound at every exit.
def keepPost (Z : Zcbor) (db : Db) : Post MapStore Errno Unit :=
  .exits (Kept db (Sound Z)) (Kept db (Sound Z)) (Kept db (Sound Z))

theorem keepPost_admits : Admits db (Sound Z) (keepPost Z db) := ⟨fun _ _ _ h => h, fun _ h => h⟩

theorem cardLen_le : cardLen ≤ entLenMask := by decide

theorem cardValid_le {card : CStr} (hv : ¬ cardValid card = false) :
    card.chars.length ≤ cardLen := by
  have hv' : cardValid card = true := by simpa using hv
  exact (of_decide_eq_true hv').2

section Ops

variable (h : Sound Z people cred)

include h

theorem dropCards_sound {cards : List CStr} (hlen : ∀ card ∈ cards, card.chars.length ≤ cardLen) :
    Spec H (At db (Sound Z) people cred) (dropCards db cards)
      (putPost db (Sound Z) (∀ card ∈ cards, card.chars.length ≠ 0) people (cleared cred cards)) :=
  dropCards_spec (I := Sound Z people) (fun card hc => (hlen card hc).trans cardLen_le) (fun _ hc => hc) h
    fun _ hc card _ => hc.drop card

theorem credDrop_sound {card : CStr} (hlen : card.chars.length ≤ cardLen) :
    Spec H (At db (Sound Z) people cred) (credDrop db card)
      (putPost db (Sound Z) (card.chars.length ≠ 0) people
        (Function.update cred card.chars none)) :=
  credDrop_spec h (hlen.trans cardLen_le) (h.drop card)

theorem personPut_sound (p : Person) :
    Spec H (At db (Sound Z) people cred) (personPut Z db p) (keepPost Z db) := by
  have hQ : Admits db (Sound Z) (keepPost Z db) := keepPost_admits
  refine Spec.ite (fun _ => Spec.fail fun s hs => hs.kept h) fun hcounts => ?_
  refine Spec.ite (fun _ => Spec.fail fun s hs => hs.kept h) fun hvalid => ?_
  rw [not_or, not_lt, not_lt] at hcounts
  have hshaped : p.Shaped := by
    refine ⟨hcounts.2, hcounts.1, fun card hc => ?_⟩
    have hall := List.all_eq_true.mp (by simpa using hvalid) card hc
    exact cardValid_le (by simpa using hall)
  refine Spec.ask hQ h (personFind_spec p.id) fun old hold => ?_
  have hshort : ∀ card ∈ withdrawn old p, card.chars.length ≤ cardLen := by
    intro card hc
    cases old with
    | none => cases hc
    | some q => exact (record_shaped (Legible.record hold)).short card (List.mem_filter.mp hc).1
  have hcleared := h.cleared (withdrawn old p)
  -- what the index still has for this person, the new record lists
  have hlists : ∀ card, holder Z (cleared cred (withdrawn old p)) card = some p.id →
      card ∈ p.cards := by
    intro card hc
    obtain ⟨hnot, hc⟩ := holder_cleared hc
    obtain ⟨q, hq, hmem⟩ := h.backed card p.id hc
    cases old with
    | none =>
      rw [record, show people (personKey p.id) = none from hold] at hq
      cases hq
    | some q' =>
      obtain rfl : q' = q := Option.some.inj ((Legible.record hold).symm.trans hq)
      by_contra hno
      exact hnot (List.mem_filter.mpr ⟨hmem, by simpa using hno⟩)
  have hstored := hcleared.store hshaped hlists
  refine Spec.put hQ (dropCards_sound h hshort) fun _ => ?_
  refine Spec.put hQ (personStore_spec hcleared p fun _ => hstored) fun _ => ?_
  have hindexed : ∀ cred', Sound Z (stored Z people p) cred' → ∀ card ∈ p.cards,
      Sound Z (stored Z people p) (Function.update cred' card.chars (some (credBytes Z p.id))) :=
    fun cred' hc card hmem => hc.put (record_stored hshaped) (hshaped.clip_cards.symm ▸ hmem)
  exact Spec.last hQ (indexCards_spec (fun _ hc => hc) hstored hindexed) fun _ s hs =>
    hs.kept (indexed_keeps (I := Sound Z _) hstored hindexed)

theorem personDelete_sound (id : UInt32) :
    Spec H (At db (Sound Z) people cred) (personDelete Z db id) (keepPost Z db) := by
  have hQ : Admits db (Sound Z) (keepPost Z db) := keepPost_admits
  refine Spec.seek hQ h (personGet_spec id) (fun _ s hs => hs.kept h) fun p hread => ?_
  have hp := hread.record
  have hcleared := h.cleared p.cards
  refine Spec.put hQ (dropCards_sound h (record_shaped hp).short) fun _ => ?_
  have herased : Sound Z (Function.update people (personKey id) none) (cleared cred p.cards) := by
    refine hcleared.erase fun card hc => ?_
    obtain ⟨hnot, hc⟩ := holder_cleared hc
    obtain ⟨q, hq, hmem⟩ := h.backed card id hc
    rw [hp] at hq
    cases hq
    exact hnot hmem
  have hdel : Spec H (At db (Sound Z) people (cleared cred p.cards))
      (mapDel db.peopleRoot (personKey id))
      (erasePost (Within db (Sound Z)) (Tables db people (cleared cred p.cards))
        (Tables db (Function.update people (personKey id) none) (cleared cred p.cards)) people
        (personKey id)) :=
    mapDel_spec (fun b hb => hb.people) (fun b hb => hb.within hcleared)
      (fun b hb => hb.within herased) fun b es hb hbinds => hb.people_update hbinds
  refine hdel.conseq (fun s hs => hs) (fun _ s hs => ?_) (fun e s hs => ?_) fun s hs => hs
  . exact hs.2.imp fun b hb => hb.within herased
  . rcases hs with ⟨-, -, hs⟩ | ⟨-, hs⟩
    . exact hs.imp fun b hb => hb.within hcleared
    . exact hs

theorem cardsFree_sound (seen cards : List CStr) :
    Spec H (At db (Sound Z) people cred) (cardsFree Z db seen cards)
      ⟨fun _ => At db (Sound Z) people cred, fun _ => Kept db (Sound Z), Kept db (Sound Z)⟩ := by
  induction cards generalizing seen with
  | nil => exact Spec.ret fun s hs => hs
  | cons card cards ih =>
    refine Spec.ite (fun _ => Spec.fail fun s hs => hs.kept h) fun _ => ?_
    refine Spec.ask ⟨fun _ _ _ hs => hs, fun _ hs => hs⟩ h (ownerFind_spec card) fun o _ => ?_
    cases o with
    | some id => exact Spec.fail fun s hs => hs.kept h
    | none => exact ih (card :: seen)

theorem personAdd_sound (p : Person) :
    Spec H (At db (Sound Z) people cred) (personAdd Z db p) (keepPost Z db) := by
  have hQ : Admits db (Sound Z) (keepPost Z db) := keepPost_admits
  refine Spec.ite (fun _ => Spec.fail fun s hs => hs.kept h) fun _ => ?_
  refine Spec.ask hQ h (personFind_spec p.id) fun o _ => ?_
  cases o with
  | some q => exact Spec.fail fun s hs => hs.kept h
  | none =>
    exact (cardsFree_sound h [] _).bind (fun _ => personPut_sound h p) (fun _ _ hs => hs)
      fun _ hs => hs

-- A card that the record lists may be put into the index.
theorem credPut_keeps {card : CStr} {id : UInt32} {p : Person} (hp : record Z people id = some p)
    (hc : card ∈ p.cards) :
    Spec H (At db (Sound Z) people cred) (credPut Z db card id) (keepPost Z db) :=
  Spec.last keepPost_admits (credPut_spec h card id (h.put hp hc)) fun _ _ hs => hs.kept (h.put hp hc)

-- A record is replaced by one with the same cards, or more.
theorem personStore_keeps {id : UInt32} {p q : Person} (hp : record Z people id = some p)
    (hq : q.Shaped) (hid : q.id = p.id) (hcards : ∀ card ∈ p.cards, card ∈ q.cards) :
    Spec H (At db (Sound Z) people cred) (personStore Z db q) (keepPost Z db) :=
  Spec.last keepPost_admits (personStore_spec h q fun _ => h.restore hp hq hid hcards) fun _ _ hs =>
    hs.kept (h.restore hp hq hid hcards)

theorem cardAssign_sound (id : UInt32) (card : CStr) :
    Spec H (At db (Sound Z) people cred) (cardAssign Z db id card) (keepPost Z db) := by
  have hQ : Admits db (Sound Z) (keepPost Z db) := keepPost_admits
  refine Spec.ite (fun _ => Spec.fail fun s hs => hs.kept h) fun hvalid => ?_
  refine Spec.ask hQ h (ownerFind_spec card) fun o _ => ?_
  refine Spec.ite (fun _ => Spec.fail fun s hs => hs.kept h) fun _ => ?_
  refine Spec.seek hQ h (personGet_spec id) (fun _ s hs => hs.kept h) fun p hread => ?_
  have hp := hread.record
  refine Spec.ite (fun hc => credPut_keeps h hp hc) fun _ => ?_
  refine Spec.ite (fun _ => Spec.fail fun s hs => hs.kept h) fun hroom => ?_
  have hshape := record_shaped hp
  have hid := h.own id p hp
  let q : Person := { p with cards := p.cards ++ [card] }
  have hq : q.Shaped := by
    refine ⟨hshape.perms, ?_, fun c hc => ?_⟩
    . simp only [q, List.length_append, List.length_singleton]
      omega
    . rcases List.mem_append.mp hc with hc | hc
      . exact hshape.short c hc
      . exact List.mem_singleton.mp hc ▸ cardValid_le hvalid
  have hstored := h.restore hp hq rfl fun c hc => List.mem_append_left [card] hc
  have hrec : record Z (stored Z people q) id = some q.clip := hid ▸ record_stored hq
  refine Spec.put hQ (personStore_spec h q fun _ => hstored) fun _ => ?_
  exact credPut_keeps hstored hrec (hq.clip_cards ▸ List.mem_append_right _ List.mem_cons_self)

theorem cardRevokeFrom_sound (id : UInt32) (card : CStr) :
    Spec H (At db (Sound Z) people cred) (cardRevokeFrom Z db id card) (keepPost Z db) := by
  have hQ : Admits db (Sound Z) (keepPost Z db) := keepPost_admits
  refine Spec.ite (fun _ => Spec.fail fun s hs => hs.kept h) fun hvalid => ?_
  have hdrop := h.drop card
  refine Spec.put hQ (credDrop_sound h (cardValid_le hvalid)) fun _ => ?_
  refine Spec.seek hQ hdrop (personGet_spec id) (fun _ s hs => hs.kept hdrop) fun p hread => ?_
  have hp := hread.record
  refine Spec.ite (fun _ => Spec.ret fun s hs => hs.kept hdrop) fun _ => ?_
  have hshape := record_shaped hp
  let q : Person := { p with cards := p.cards.filter (· ≠ card) }
  have hq : q.Shaped :=
    ⟨hshape.perms, (List.length_filter_le _ _).trans hshape.cards,
      fun c hc => hshape.short c (List.mem_filter.mp hc).1⟩
  have hstored : Sound Z (stored Z people q) (Function.update cred card.chars none) := by
    refine hdrop.store hq fun c hc => ?_
    obtain ⟨hne, hold⟩ := holder_drop hc
    obtain ⟨p', hp', hmem⟩ := h.backed c q.id hold
    rw [show q.id = p.id from rfl, h.own id p hp, hp] at hp'
    cases hp'
    exact List.mem_filter.mpr ⟨hmem, by simpa using hne⟩
  exact Spec.last hQ (personStore_spec hdrop q fun _ => hstored) fun _ s hs => hs.kept hstored

theorem cardRevoke_sound (card : CStr) :
    Spec H (At db (Sound Z) people cred) (cardRevoke Z db card) (keepPost Z db) := by
  refine Spec.ite (fun _ => Spec.fail fun s hs => hs.kept h) fun _ => ?_
  exact Spec.seek keepPost_admits h (cardOwner_spec card) (fun _ s hs => hs.kept h) fun id _ =>
    cardRevokeFrom_sound h id card

theorem permissionGrant_sound (id : UInt32) (perm : CStr) :
    Spec H (At db (Sound Z) people cred) (permissionGrant Z db id perm) (keepPost Z db) := by
  refine Spec.ite (fun _ => Spec.fail fun s hs => hs.kept h) fun _ => ?_
  refine Spec.seek keepPost_admits h (personGet_spec id) (fun _ s hs => hs.kept h) fun p hread => ?_
  have hp := hread.record
  refine Spec.ite (fun _ => Spec.ret fun s hs => hs.kept h) fun _ => ?_
  refine Spec.ite (fun _ => Spec.fail fun s hs => hs.kept h) fun hroom => ?_
  have hshape := record_shaped hp
  refine personStore_keeps h hp ⟨?_, hshape.cards, hshape.short⟩ rfl fun _ hc => hc
  simp only [List.length_append, List.length_singleton]
  omega

theorem permissionRevoke_sound (id : UInt32) (perm : CStr) :
    Spec H (At db (Sound Z) people cred) (permissionRevoke Z db id perm) (keepPost Z db) := by
  refine Spec.ite (fun _ => Spec.fail fun s hs => hs.kept h) fun _ => ?_
  refine Spec.seek keepPost_admits h (personGet_spec id) (fun _ s hs => hs.kept h) fun p hread => ?_
  have hp := hread.record
  refine Spec.ite (fun _ => Spec.fail fun s hs => hs.kept h) fun _ => ?_
  have hshape := record_shaped hp
  exact personStore_keeps h hp
    ⟨(List.length_filter_le _ _).trans hshape.perms, hshape.cards, hshape.short⟩ rfl fun _ hc => hc

theorem personRename_sound (id : UInt32) (name : CStr) :
    Spec H (At db (Sound Z) people cred) (personRename Z db id name) (keepPost Z db) := by
  refine Spec.ite (fun _ => Spec.fail fun s hs => hs.kept h) fun _ => ?_
  refine Spec.seek keepPost_admits h (personGet_spec id) (fun _ s hs => hs.kept h) fun p hread => ?_
  have hp := hread.record
  refine Spec.ite (fun _ => Spec.ret fun s hs => hs.kept h) fun _ => ?_
  have hshape := record_shaped hp
  exact personStore_keeps h hp ⟨hshape.perms, hshape.cards, hshape.short⟩ rfl fun _ hc => hc

theorem personSetValidity_sound (id validFrom validUntil : UInt32) :
    Spec H (At db (Sound Z) people cred) (personSetValidity Z db id validFrom validUntil)
      (keepPost Z db) := by
  refine Spec.ite (fun _ => Spec.fail fun s hs => hs.kept h) fun _ => ?_
  refine Spec.seek keepPost_admits h (personGet_spec id) (fun _ s hs => hs.kept h) fun p hread => ?_
  have hp := hread.record
  refine Spec.ite (fun _ => Spec.ret fun s hs => hs.kept h) fun _ => ?_
  have hshape := record_shaped hp
  exact personStore_keeps h hp ⟨hshape.perms, hshape.cards, hshape.short⟩ rfl fun _ hc => hc

end Ops

/-! Whole runs -/

inductive PersonOp where
  | put (p : Person)
  | add (p : Person)
  | delete (id : UInt32)
  | assign (id : UInt32) (card : CStr)
  | revokeFrom (id : UInt32) (card : CStr)
  | revoke (card : CStr)
  | grant (id : UInt32) (perm : CStr)
  | ungrant (id : UInt32) (perm : CStr)
  | rename (id : UInt32) (name : CStr)
  | setValidity (id validFrom validUntil : UInt32)

def PersonOp.run (Z : Zcbor) (db : Db) : PersonOp → S Unit
  | .put p => personPut Z db p
  | .add p => personAdd Z db p
  | .delete id => personDelete Z db id
  | .assign id card => cardAssign Z db id card
  | .revokeFrom id card => cardRevokeFrom Z db id card
  | .revoke card => cardRevoke Z db card
  | .grant id perm => permissionGrant Z db id perm
  | .ungrant id perm => permissionRevoke Z db id perm
  | .rename id name => personRename Z db id name
  | .setValidity id validFrom validUntil => personSetValidity Z db id validFrom validUntil

-- A call with what its writes and its reads meet.
structure PersonCall where
  op : PersonOp
  fates : List Fate
  faults : List (Option Fault)

def enter (s : MapStore) (fates : List Fate) (faults : List (Option Fault)) : MapStore :=
  { s with fates := fates, faults := faults }

def personStep (Z : Zcbor) (db : Db) (s : MapStore) (c : PersonCall) : MapStore :=
  (c.op.run Z db (enter s c.fates c.faults)).2

def runPersons (Z : Zcbor) (db : Db) (s : MapStore) (cs : List PersonCall) : MapStore :=
  cs.foldl (personStep Z db) s

-- What the store was bound to at some time.
def WasBound (s : MapStore) (b : Items) : Prop :=
  b = s.items ∨ ∃ id item f, .write id item f b ∈ s.history

-- A store that persondb_open has just built.
structure Fresh (db : Db) (s : MapStore) : Prop where
  people : s.items db.peopleRoot = some (.map ∅)
  cred : s.items db.credRoot = some (.map ∅)
  apart : db.peopleRoot ≠ db.credRoot
  history : s.history = []

-- An always true hypothesis.
def anyHistory : Hypothesis MapStore := ⟨fun _ => True, fun _ _ => trivial⟩

theorem Fresh.kept {s : MapStore} (h : Fresh db s) : Kept db (Sound Z) s := by
  have hempty : (fun k => (∅ : Entries).lookup k) = (fun _ => none : KvMap) := rfl
  refine ⟨⟨fun _ => none, fun _ => none, ⟨⟨∅, h.people, hempty⟩, ⟨∅, h.cred, hempty⟩, h.apart⟩, ?_⟩, ?_⟩
  . constructor
    . intro id p hp
      cases hp
    . intro card id hid
      cases hid
  . intro id item f b hmem
    rw [h.history] at hmem
    cases hmem

theorem PersonOp.run_sound (op : PersonOp) :
    Spec H (Kept db (Sound Z)) (op.run Z db) (keepPost Z db) := by
  refine Spec.within fun people cred h => ?_
  cases op with
  | put p => exact personPut_sound h p
  | add p => exact personAdd_sound h p
  | delete id => exact personDelete_sound h id
  | assign id card => exact cardAssign_sound h id card
  | revokeFrom id card => exact cardRevokeFrom_sound h id card
  | revoke card => exact cardRevoke_sound h card
  | grant id perm => exact permissionGrant_sound h id perm
  | ungrant id perm => exact permissionRevoke_sound h id perm
  | rename id name => exact personRename_sound h id name
  | setValidity id validFrom validUntil => exact personSetValidity_sound h id validFrom validUntil

theorem personStep_kept {s : MapStore} (h : Kept db (Sound Z) s) (c : PersonCall) :
    Kept db (Sound Z) (personStep Z db s c) := by
  have hspec := c.op.run_sound (Z := Z) (H := anyHistory) (enter s c.fates c.faults)
    ⟨h.now, h.past⟩ trivial
  rw [personStep]
  generalize c.op.run Z db (enter s c.fates c.faults) = r at hspec
  obtain ⟨o, t⟩ := r
  cases o <;> exact hspec

theorem runPersons_kept (cs : List PersonCall) {s : MapStore} (h : Kept db (Sound Z) s) :
    Kept db (Sound Z) (runPersons Z db s cs) := by
  induction cs generalizing s with
  | nil => exact h
  | cons c cs ih => exact ih (personStep_kept h c)

-- A grant comes with the record that it rests on.
theorem check_granted (h : Sound Z people cred) (card perm : CStr) (now : UInt32) :
    Spec H (At db (Sound Z) people cred) (check Z db card perm now)
      ⟨fun d _ => d.1 = .granted → ∃ id p, record Z people id = some p ∧ card ∈ p.cards ∧
        perm ∈ p.perms ∧ p.validFrom ≤ now ∧ now < p.validUntil, fun _ _ => True, fun _ => True⟩ := by
  refine Spec.ask ⟨fun _ _ _ _ => trivial, fun _ _ => trivial⟩ h (ownerFind_spec card) fun o ho => ?_
  cases o with
  | none => exact Spec.ret fun s _ hd => by cases hd
  | some id =>
    refine Spec.ask ⟨fun _ _ _ _ => trivial, fun _ _ => trivial⟩ h (personFind_spec id) fun o hp => ?_
    cases o with
    | none => exact Spec.ret fun s _ hd => by cases hd
    | some p =>
      refine Spec.ite (fun _ => Spec.ret fun s _ hd => by cases hd) fun hnow => ?_
      refine Spec.ite (fun hperm => Spec.ret fun s _ _ => ?_) fun _ => Spec.ret fun s _ hd => by cases hd
      obtain ⟨q, hq, hmem⟩ := h.backed card id (Names.holder ho)
      rw [Legible.record hp] at hq
      cases hq
      rw [not_or, UInt32.not_lt, UInt32.not_le] at hnow
      exact ⟨id, p, Legible.record hp, hmem, hperm, hnow.1, hnow.2⟩

theorem person_never_fails_open (hfresh : Fresh db s) (cs : List PersonCall) :
    (∀ b, WasBound (runPersons Z db s cs) b → ∀ card id,
      holder Z (mapOf b db.credRoot) card = some id →
      ∃ p, record Z (mapOf b db.peopleRoot) id = some p ∧ card ∈ p.cards) ∧
    ∀ card perm now fates faults who,
      (check Z db card perm now (enter (runPersons Z db s cs) fates faults)).1 =
        .ok (.granted, who) →
      ∃ id p, record Z (mapOf (runPersons Z db s cs).items db.peopleRoot) id = some p ∧
        card ∈ p.cards ∧ perm ∈ p.perms ∧ p.validFrom ≤ now ∧ now < p.validUntil := by
  have hkept := runPersons_kept (Z := Z) cs hfresh.kept
  constructor
  . intro b hb card id hid
    have hw : Within db (Sound Z) b := by
      rcases hb with rfl | ⟨i, item, f, hmem⟩
      . exact hkept.now
      . exact hkept.past _ _ _ _ hmem
    obtain ⟨people, cred, ht, hsound⟩ := hw
    rw [ht.cred.mapOf] at hid
    rw [ht.people.mapOf]
    exact hsound.backed card id hid
  . intro card perm now fates faults who hrun
    obtain ⟨people, cred, ht, hsound⟩ := hkept.now
    have hspec := (@check_granted _ db _ _ anyHistory hsound card perm now)
      (enter (runPersons Z db s cs) fates faults) ⟨ht, hkept.past⟩ trivial
    rw [ht.people.mapOf]
    generalize check Z db card perm now (enter (runPersons Z db s cs) fates faults) = r at hspec hrun
    obtain ⟨o, t⟩ := r
    obtain rfl : o = .ok (.granted, who) := hrun
    exact hspec rfl

def smallDb : Db := ⟨1, 2⟩

def freshStore : MapStore :=
  ⟨fun id => if id = 1 ∨ id = 2 then some (.map ∅) else none, 2, [], [], [], []⟩

theorem freshStore_fresh : Fresh smallDb freshStore := ⟨rfl, rfl, by decide, rfl⟩

def cardA : CStr := ⟨[65], by decide⟩
def cardB : CStr := ⟨[66], by decide⟩
def door : CStr := ⟨[100], by decide⟩

def someone (id : UInt32) (cards : List CStr) : Person where
  id := id
  name := ⟨[80], by decide⟩
  dept := ⟨[], by decide⟩
  title := ⟨[], by decide⟩
  validFrom := 10
  validUntil := 20
  pinHash := ⟨List.replicate pinLen 0, by decide⟩
  perms := [door]
  cards := cards

-- A card that two persons list, and a replacement that is cut after its record.
def sharedCalls : List PersonCall :=
  [⟨.put (someone 1 [cardA, cardB]), [], []⟩,
    ⟨.put (someone 2 [cardB]), [], []⟩,
    ⟨.put (someone 1 [cardB]), [.done, .cut true], []⟩]

theorem person_never_fails_open_shared :
    ((check zcbor smallDb cardB door 15 (enter (runPersons zcbor smallDb freshStore sharedCalls) [] [])).1
        = .ok (.granted, some (someone 2 [cardB]))) ∧
      ∃ id p,
        record zcbor (mapOf (runPersons zcbor smallDb freshStore sharedCalls).items 1) id = some p ∧
        cardB ∈ p.cards ∧ door ∈ p.perms ∧ p.validFrom ≤ 15 ∧ 15 < p.validUntil := by
  have hrun : (check zcbor smallDb cardB door 15
      (enter (runPersons zcbor smallDb freshStore sharedCalls) [] [])).1 =
        .ok (.granted, some (someone 2 [cardB])) := by
    decide +kernel
  exact ⟨hrun, (person_never_fails_open freshStore_fresh sharedCalls).2 cardB door 15 [] [] _ hrun⟩

end KeyValueDb.Persondb
