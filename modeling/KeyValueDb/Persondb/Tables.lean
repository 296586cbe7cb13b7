import KeyValueDb.Persondb.Persondb

/-!
The two maps as functions, and what each step of an operation does to them.
-/

namespace KeyValueDb.Persondb

open Containers Kvdb

-- What the two maps are.
structure Tables (db : Db) (people cred : KvMap) (b : Items) : Prop where
  people : Binds b db.peopleRoot people
  cred : Binds b db.credRoot cred
  apart : db.peopleRoot ≠ db.credRoot

-- The maps are in a relation.
def Within (db : Db) (R : KvMap → KvMap → Prop) (b : Items) : Prop :=
  ∃ people cred, Tables db people cred b ∧ R people cred

-- The two maps now, and the relation at each write so far.
def At (db : Db) (R : KvMap → KvMap → Prop) (people cred : KvMap) : MapStore → Prop :=
  Along (Within db R) (Tables db people cred)

abbrev Kept (db : Db) (R : KvMap → KvMap → Prop) : MapStore → Prop :=
  Along (Within db R) (Within db R)

-- The record of a person.
def record (Z : Zcbor) (people : KvMap) (id : UInt32) : Option Person :=
  (people (personKey id)).bind fun bytes => (personCborDecode Z bytes).toOption

-- Who the index names.
def holder (Z : Zcbor) (cred : KvMap) (card : CStr) : Option UInt32 :=
  (cred card.chars).bind fun bytes => (credCborDecode Z bytes).toOption

-- A record that an operation can read.
def Legible (Z : Zcbor) (people : KvMap) (id : UInt32) (p : Person) : Prop :=
  ∃ bytes, people (personKey id) = some bytes ∧ bytes.length ≤ personCborMax ∧
    personCborDecode Z bytes = .ok p

-- An index entry that an operation can read.
def Names (Z : Zcbor) (cred : KvMap) (card : CStr) (id : UInt32) : Prop :=
  ∃ bytes, cred card.chars = some bytes ∧ bytes.length ≤ credCborMax ∧
    credCborDecode Z bytes = .ok id

def personBytes (Z : Zcbor) (p : Person) : List UInt8 := Z.put (personToks p)

def credBytes (Z : Zcbor) (id : UInt32) : List UInt8 := Z.put [.uint id.toUInt64]

def stored (Z : Zcbor) (people : KvMap) (p : Person) : KvMap :=
  Function.update people (personKey p.id) (some (personBytes Z p))

def cleared (cred : KvMap) (cards : List CStr) : KvMap := fun k =>
  if k ∈ cards.map CStr.chars then none else cred k

def indexed (Z : Zcbor) (cred : KvMap) (id : UInt32) (cards : List CStr) : KvMap := fun k =>
  if k ∈ cards.map CStr.chars then some (credBytes Z id) else cred k

variable {Z : Zcbor} {db : Db} {R : KvMap → KvMap → Prop} {people cred : KvMap}
  {H : Hypothesis MapStore} {α β : Type}

theorem Legible.record {id : UInt32} {p : Person} (h : Legible Z people id p) :
    record Z people id = some p := by
  obtain ⟨bytes, hb, -, hd⟩ := h
  rw [Persondb.record, hb, Option.bind_some, hd]
  rfl

theorem Names.holder {card : CStr} {id : UInt32} (h : Names Z cred card id) :
    holder Z cred card = some id := by
  obtain ⟨bytes, hb, -, hd⟩ := h
  rw [Persondb.holder, hb, Option.bind_some, hd]
  rfl

theorem personKey_inj {id id' : UInt32} (h : personKey id = personKey id') : id = id' := by
  have hdigit : ∀ a b : Fin 16, hexDigit a = hexDigit b → a = b := by decide
  have hpos : ∀ i ∈ [7, 6, 5, 4, 3, 2, 1, 0], id.toNat / 16 ^ i % 16 = id'.toNat / 16 ^ i % 16 := by
    intro i hi
    have hmap := List.map_inj_left.mp (List.cons.inj h).2 i hi
    have hlt : ∀ n : Nat, n % 16 < 16 := fun n => Nat.mod_lt _ (by decide)
    exact congrArg Fin.val (hdigit ⟨_, hlt _⟩ ⟨_, hlt _⟩ hmap)
  have h7 := hpos 7 (by decide)
  have h6 := hpos 6 (by decide)
  have h5 := hpos 5 (by decide)
  have h4 := hpos 4 (by decide)
  have h3 := hpos 3 (by decide)
  have h2 := hpos 2 (by decide)
  have h1 := hpos 1 (by decide)
  have h0 := hpos 0 (by decide)
  have hlt := id.toNat_lt
  have hlt' := id'.toNat_lt
  apply UInt32.toNat.inj
  omega

theorem personKey_length (id : UInt32) : (personKey id).length = 9 := rfl

theorem Tables.within {b : Items} (h : Tables db people cred b) (hR : R people cred) :
    Within db R b :=
  ⟨people, cred, h, hR⟩

theorem At.kept {s : MapStore} (h : At db R people cred s) (hR : R people cred) : Kept db R s :=
  h.imp fun _ hb => hb.within hR

-- An operation that finds maps in the relation finds some two of them.
theorem Spec.within {Q : Post MapStore Errno α} {x : S α}
    (h : ∀ people cred, R people cred → Spec H (At db R people cred) x Q) :
    Spec H (Kept db R) x Q := by
  rintro s ⟨⟨people, cred, ht, hR⟩, hpast⟩ hh
  exact h people cred hR s ⟨ht, hpast⟩ hh

/-! Reading -/

-- An answer about the maps, or an error that is not about them.
def askPost (db : Db) (R : KvMap → KvMap → Prop) (people cred : KvMap) (φ : α → Prop) :
    Post MapStore Errno α where
  ok a s := φ a ∧ At db R people cred s
  err e s := e.Telling ∧ At db R people cred s
  cut _ := False

-- As `askPost`, where it is an error too that there is nothing.
def seekPost (db : Db) (R : KvMap → KvMap → Prop) (people cred : KvMap) (φ : α → Prop)
    (absent : Prop) : Post MapStore Errno α where
  ok a s := φ a ∧ At db R people cred s
  err e s := (e = Errno.ENOENT ∧ absent ∨ e.Telling) ∧ At db R people cred s
  cut _ := False

theorem decodeBy_telling {x : Scan α} {bytes : List UInt8} {e : Errno}
    (h : decodeBy Z x bytes = .error e) : e.Telling := by
  rw [decodeBy] at h
  split at h
  . cases h
  . cases h
    exact ⟨by rintro ⟨⟩, by rintro ⟨⟩⟩

theorem personGet_spec (id : UInt32) :
    Spec H (At db R people cred) (personGet Z db id)
      (seekPost db R people cred (Legible Z people id) (people (personKey id) = none)) := by
  have hm : ∀ b, Tables db people cred b → Binds b db.peopleRoot people := fun b hb => hb.people
  refine (mapGet_spec hm (personKey id) personCborMax).bind (fun bytes => ?_) ?_ fun _ hf => hf.elim
  . refine Spec.fact fun hbytes => ?_
    cases hd : personCborDecode Z bytes with
    | ok p => exact Spec.ret fun s hs => ⟨⟨bytes, hbytes.1, hbytes.2, hd⟩, hs⟩
    | error e => exact Spec.fail fun s hs => ⟨.inr (decodeBy_telling hd), hs⟩
  . rintro e s ⟨he, hs⟩
    exact ⟨he.imp_left fun h => ⟨h.1, h.2 ((personKey_length id).trans_le (by decide))⟩, hs⟩

theorem cardOwner_spec (card : CStr) :
    Spec H (At db R people cred) (cardOwner Z db card)
      (seekPost db R people cred (Names Z cred card) (Missing cred card.chars)) := by
  have hm : ∀ b, Tables db people cred b → Binds b db.credRoot cred := fun b hb => hb.cred
  refine (mapGet_spec hm card.chars credCborMax).bind (fun bytes => ?_) ?_ fun _ hf => hf.elim
  . refine Spec.fact fun hbytes => ?_
    cases hd : credCborDecode Z bytes with
    | ok id => exact Spec.ret fun s hs => ⟨⟨bytes, hbytes.1, hbytes.2, hd⟩, hs⟩
    | error e => exact Spec.fail fun s hs => ⟨.inr (decodeBy_telling hd), hs⟩
  . exact fun e s h => h

-- What there is, or that there is nothing.
def Answers (φ : α → Prop) (absent : Prop) : Option α → Prop
  | some a => φ a
  | none => absent

-- To find nothing becomes an answer.
theorem Spec.found {x : S α} {f : Except Errno α → S (Option α)} {φ : α → Prop} {absent : Prop}
    (hx : Spec H (At db R people cred) x (seekPost db R people cred φ absent))
    (hok : ∀ a, f (.ok a) = pure (some a))
    (herr : ∀ e, f (.error e) = if e = Errno.ENOENT then pure none else Proc.fail e) :
    Spec H (At db R people cred) (Proc.attempt x >>= f)
      (askPost db R people cred (Answers φ absent)) := by
  refine hx.attempt.bind (fun r => ?_) (fun _ _ h => h.elim) fun _ h => h.elim
  cases r with
  | ok a =>
    rw [hok]
    exact Spec.ret fun s hs => hs
  | error e =>
    rw [herr]
    refine Spec.ite (fun he => Spec.ret fun s hs => ⟨?_, hs.2⟩) fun he => Spec.fail fun s hs => ⟨?_, hs.2⟩
    . exact hs.1.elim (fun h => h.2) fun h => absurd he h.1
    . exact hs.1.elim (fun h => absurd h.1 he) id

theorem personFind_spec (id : UInt32) :
    Spec H (At db R people cred) (personFind Z db id)
      (askPost db R people cred (Answers (Legible Z people id) (people (personKey id) = none))) :=
  Spec.found (personGet_spec id) (fun _ => rfl) fun _ => rfl

theorem ownerFind_spec (card : CStr) :
    Spec H (At db R people cred) (ownerFind Z db card)
      (askPost db R people cred (Answers (Names Z cred card) (Missing cred card.chars))) :=
  Spec.found (cardOwner_spec card) (fun _ => rfl) fun _ => rfl

/-! Writing -/

-- The maps have become `people` and `cred`, which tells `φ`, or the operation stops with them in the
-- relation.
def putPost (db : Db) (R : KvMap → KvMap → Prop) (φ : Prop) (people cred : KvMap) :
    Post MapStore Errno Unit where
  ok _ s := φ ∧ At db R people cred s
  err e s := e.Telling ∧ Kept db R s
  cut := Kept db R

-- A person that fits the buffer.
def Encodes (Z : Zcbor) (p : Person) : Prop :=
  personCborEncode Z p personCborMax = .ok (personBytes Z p)

-- An index entry that can be written.
def Indexes (Z : Zcbor) (id : UInt32) (card : CStr) : Prop :=
  credCborEncode Z id credCborMax = .ok (credBytes Z id) ∧ card.chars.length ≠ 0

theorem Tables.people_update {b : Items} (h : Tables db people cred b) {people' : KvMap} {es : Entries}
    (hb : Binds (Function.update b db.peopleRoot (some (.map es))) db.peopleRoot people') :
    Tables db people' cred (Function.update b db.peopleRoot (some (.map es))) :=
  ⟨hb, h.cred.update_ne h.apart.symm _, h.apart⟩

theorem Tables.cred_update {b : Items} (h : Tables db people cred b) {cred' : KvMap} {es : Entries}
    (hb : Binds (Function.update b db.credRoot (some (.map es))) db.credRoot cred') :
    Tables db people cred' (Function.update b db.credRoot (some (.map es))) :=
  ⟨h.people.update_ne h.apart _, hb, h.apart⟩

theorem encodeToks_telling {ts : List Cbor.Tok} {bufSz : Nat} {e : Errno}
    (h : encodeToks Z ts bufSz = .error e) : e.Telling := by
  rw [encodeToks] at h
  split at h
  . cases h
    exact ⟨by rintro ⟨⟩, by rintro ⟨⟩⟩
  . cases h

theorem personCborEncode_telling {p : Person} {bufSz : Nat} {e : Errno}
    (h : personCborEncode Z p bufSz = .error e) : e.Telling := by
  rw [personCborEncode] at h
  split at h
  . cases h
    exact ⟨by rintro ⟨⟩, by rintro ⟨⟩⟩
  . exact encodeToks_telling h

theorem personCborEncode_bytes {p : Person} {bufSz : Nat} {bytes : List UInt8}
    (h : personCborEncode Z p bufSz = .ok bytes) : bytes = personBytes Z p := by
  rw [personCborEncode] at h
  split at h
  . cases h
  . exact encodeToks_ok h

theorem personStore_spec (hR : R people cred) (p : Person)
    (hR' : Encodes Z p → R (stored Z people p) cred) :
    Spec H (At db R people cred) (personStore Z db p)
      (putPost db R (Encodes Z p) (stored Z people p) cred) := by
  refine Spec.ofExcept_bind (fun e he s hs => ⟨personCborEncode_telling he, hs.kept hR⟩) ?_
  intro bytes hb'
  obtain rfl := personCborEncode_bytes hb'
  refine Spec.conseq (mapSet_spec (fun b hb => hb.people) (fun b hb => hb.within hR)
    (fun b hb => hb.within (hR' hb')) fun b es hb hbinds => hb.people_update hbinds) (fun s hs => hs) ?_
    (fun e s hs => hs) fun s hs => hs
  exact fun _ s hs => ⟨hb', hs.2⟩

theorem credPut_spec (hR : R people cred) (card : CStr) (id : UInt32)
    (hR' : R people (Function.update cred card.chars (some (credBytes Z id)))) :
    Spec H (At db R people cred) (credPut Z db card id)
      (putPost db R (Indexes Z id card) people
        (Function.update cred card.chars (some (credBytes Z id)))) := by
  refine Spec.ofExcept_bind (fun e he s hs => ⟨encodeToks_telling he, hs.kept hR⟩) ?_
  intro bytes hb
  obtain rfl : bytes = credBytes Z id := encodeToks_ok hb
  refine Spec.conseq (mapSet_spec (fun b hb => hb.cred) (fun b hb => hb.within hR)
    (fun b hb => hb.within hR') fun b es hb hbinds => hb.cred_update hbinds) (fun s hs => hs) ?_
    (fun e s hs => hs) fun s hs => hs
  exact fun _ s hs => ⟨⟨hb, hs.1⟩, hs.2⟩

theorem credDrop_spec (hR : R people cred) {card : CStr} (hlen : card.chars.length ≤ entLenMask)
    (hR' : R people (Function.update cred card.chars none)) :
    Spec H (At db R people cred) (credDrop db card)
      (putPost db R (card.chars.length ≠ 0) people (Function.update cred card.chars none)) := by
  have hdel : Spec H (At db R people cred) (credDel db card)
      (erasePost (Within db R) (Tables db people cred)
        (Tables db people (Function.update cred card.chars none)) cred card.chars) :=
    mapDel_spec (fun b hb => hb.cred) (fun b hb => hb.within hR) (fun b hb => hb.within hR')
      fun b es hb hbinds => hb.cred_update hbinds
  refine hdel.attempt.bind (fun r => ?_) (fun _ _ h => h.elim) fun _ h => h
  cases r with
  | ok a => exact Spec.ret fun s hs => ⟨hs.1.1, hs.2⟩
  | error e =>
    refine Spec.ite (fun he => Spec.ret fun s hs => ?_) fun he => Spec.fail fun s hs => ?_
    . rcases hs with ⟨-, ⟨hne, hmiss⟩, hs⟩ | ⟨htell, -⟩
      . -- there was no entry
        have hsame : Function.update cred card.chars none = cred := by
          rw [← hmiss hlen, Function.update_eq_self]
        rw [hsame]
        exact ⟨hne, hs⟩
      . exact absurd he htell.1
    . rcases hs with ⟨hent, -⟩ | hs
      . exact absurd hent he
      . exact hs

theorem cleared_nil (cred : KvMap) : cleared cred [] = cred := by
  funext k
  simp [cleared]

theorem cleared_cons (cred : KvMap) (card : CStr) (cards : List CStr) :
    cleared cred (card :: cards) = cleared (Function.update cred card.chars none) cards := by
  funext k
  by_cases hk : k = card.chars
  . subst hk
    simp [cleared]
  . simp [cleared, hk]

theorem dropCards_spec {I : KvMap → Prop} {cards : List CStr}
    (hlen : ∀ card ∈ cards, card.chars.length ≤ entLenMask) (hI : ∀ c, I c → R people c)
    (h : I cred) (hstep : ∀ c, I c → ∀ card ∈ cards, I (Function.update c card.chars none)) :
    Spec H (At db R people cred) (dropCards db cards)
      (putPost db R (∀ card ∈ cards, card.chars.length ≠ 0) people (cleared cred cards)) := by
  induction cards generalizing cred with
  | nil =>
    rw [cleared_nil]
    exact Spec.ret fun s hs => ⟨nofun, hs⟩
  | cons card cards ih =>
    have h' := hstep cred h card List.mem_cons_self
    rw [cleared_cons]
    refine (credDrop_spec (hI _ h) (hlen card List.mem_cons_self) (hI _ h')).bind
      (fun _ => Spec.fact fun hne => ?_) (fun _ _ h => h) fun _ h => h
    have hrest := ih (fun c hc => hlen c (List.mem_cons_of_mem _ hc)) h'
      fun c hc card hmem => hstep c hc card (List.mem_cons_of_mem _ hmem)
    exact hrest.conseq (fun s hs => hs) (fun _ s hs => ⟨List.forall_mem_cons.mpr ⟨hne, hs.1⟩, hs.2⟩)
      (fun e s hs => hs) fun s hs => hs

theorem indexed_nil (cred : KvMap) (id : UInt32) : indexed Z cred id [] = cred := by
  funext k
  simp [indexed]

theorem indexed_cons (cred : KvMap) (id : UInt32) (card : CStr) (cards : List CStr) :
    indexed Z cred id (card :: cards) =
      indexed Z (Function.update cred card.chars (some (credBytes Z id))) id cards := by
  funext k
  by_cases hk : k = card.chars
  . subst hk
    simp [indexed]
  . simp [indexed, hk]

-- What each entry keeps, all of them keep.
theorem indexed_keeps {I : KvMap → Prop} {id : UInt32} {cards : List CStr} (h : I cred)
    (hstep : ∀ cred', I cred' → ∀ card ∈ cards,
      I (Function.update cred' card.chars (some (credBytes Z id)))) :
    I (indexed Z cred id cards) := by
  induction cards generalizing cred with
  | nil =>
    rw [indexed_nil]
    exact h
  | cons card cards ih =>
    rw [indexed_cons]
    exact ih (hstep cred h card List.mem_cons_self)
      fun cred' hc' c hc => hstep cred' hc' c (List.mem_cons_of_mem _ hc)

theorem indexCards_spec {I : KvMap → Prop} {id : UInt32} {cards : List CStr}
    (hI : ∀ c, I c → R people c) (h : I cred)
    (hstep : ∀ c, I c → ∀ card ∈ cards,
      I (Function.update c card.chars (some (credBytes Z id)))) :
    Spec H (At db R people cred) (indexCards Z db id cards)
      (putPost db R (∀ card ∈ cards, Indexes Z id card) people (indexed Z cred id cards)) := by
  induction cards generalizing cred with
  | nil =>
    rw [indexed_nil]
    exact Spec.ret fun s hs => ⟨nofun, hs⟩
  | cons card cards ih =>
    have h' := hstep cred h card List.mem_cons_self
    rw [indexed_cons]
    refine (credPut_spec (hI _ h) card id (hI _ h')).bind (fun _ => Spec.fact fun hput => ?_)
      (fun _ _ h => h) fun _ h => h
    have hrest := ih h' fun c hc card hmem => hstep c hc card (List.mem_cons_of_mem _ hmem)
    exact hrest.conseq (fun s hs => hs) (fun _ s hs => ⟨List.forall_mem_cons.mpr ⟨hput, hs.1⟩, hs.2⟩)
      (fun e s hs => hs) fun s hs => hs

/-! Putting the steps together -/

-- An operation may stop wherever the maps are in the relation.
structure Admits (db : Db) (R : KvMap → KvMap → Prop) (Q : Post MapStore Errno β) : Prop where
  err : ∀ e s, e.Telling → Kept db R s → Q.err e s
  cut : ∀ s, Kept db R s → Q.cut s

variable {Q : Post MapStore Errno β} {P : MapStore → Prop} {people' cred' : KvMap}

theorem Spec.ask {x : S α} {f : α → S β} {φ : α → Prop} (hQ : Admits db R Q) (hR : R people cred)
    (hx : Spec H P x (askPost db R people cred φ))
    (hf : ∀ a, φ a → Spec H (At db R people cred) (f a) Q) : Spec H P (x >>= f) Q :=
  hx.bind (fun a => Spec.fact (hf a)) (fun e s h => hQ.err e s h.1 (h.2.kept hR)) fun _ h => h.elim

theorem Spec.seek {x : S α} {f : α → S β} {φ : α → Prop} {absent : Prop} (hQ : Admits db R Q)
    (hR : R people cred) (hx : Spec H P x (seekPost db R people cred φ absent))
    (habs : absent → ∀ s, At db R people cred s → Q.err Errno.ENOENT s)
    (hf : ∀ a, φ a → Spec H (At db R people cred) (f a) Q) : Spec H P (x >>= f) Q := by
  refine hx.bind (fun a => Spec.fact (hf a)) ?_ fun _ h => h.elim
  rintro e s ⟨⟨rfl, ha⟩ | he, hs⟩
  . exact habs ha s hs
  . exact hQ.err e s he (hs.kept hR)

theorem Spec.put {x : S Unit} {f : Unit → S β} {φ : Prop} (hQ : Admits db R Q)
    (hx : Spec H P x (putPost db R φ people' cred'))
    (hf : φ → Spec H (At db R people' cred') (f ()) Q) : Spec H P (x >>= f) Q :=
  hx.bind (fun _ => Spec.fact hf) (fun e s h => hQ.err e s h.1 h.2) hQ.cut

theorem Spec.last {x : S Unit} {Q : Post MapStore Errno Unit} {φ : Prop} (hQ : Admits db R Q)
    (hx : Spec H P x (putPost db R φ people' cred'))
    (hok : φ → ∀ s, At db R people' cred' s → Q.ok () s) : Spec H P x Q :=
  hx.conseq (fun _ h => h) (fun _ s h => hok h.1 s h.2) (fun e s h => hQ.err e s h.1 h.2) hQ.cut

/-! Records and index entries after a step -/

theorem record_shaped {id : UInt32} {p : Person} (h : record Z people id = some p) : p.Shaped := by
  obtain ⟨bytes, -, hd⟩ := Option.bind_eq_some_iff.mp h
  cases hdec : personCborDecode Z bytes with
  | ok q =>
    rw [hdec] at hd
    cases hd
    exact personCborDecode_shaped hdec
  | error e =>
    rw [hdec] at hd
    cases hd

theorem personCborDecode_bytes {p : Person} (h : p.Shaped) :
    personCborDecode Z (personBytes Z p) = .ok p.clip := by
  rw [personBytes, personCborDecode, decodeBy,
    Z.scan_put _ (personToks_closes p) (personToks_short p) (personToks_length h.perms h.cards),
    personScan_toks h.perms h.cards]

theorem record_stored {p : Person} (h : p.Shaped) :
    record Z (stored Z people p) p.id = some p.clip := by
  rw [record, stored, Function.update_self, Option.bind_some, personCborDecode_bytes h]
  rfl

theorem record_stored_ne {p : Person} {id : UInt32} (h : id ≠ p.id) :
    record Z (stored Z people p) id = record Z people id := by
  rw [record, stored, Function.update_of_ne fun he => h (personKey_inj he), record]

theorem record_erased_ne {id id' : UInt32} (h : id ≠ id') :
    record Z (Function.update people (personKey id') none) id = record Z people id := by
  rw [record, Function.update_of_ne fun he => h (personKey_inj he), record]

theorem credCborDecode_bytes (id : UInt32) : credCborDecode Z (credBytes Z id) = .ok id := by
  rw [credBytes, credCborDecode, decodeBy, scan_put_uint, uint32_cons]

theorem cstr_chars_inj {s t : CStr} (h : s.chars = t.chars) : s = t := by
  cases s
  cases t
  simpa using h

theorem holder_put (card : CStr) (id : UInt32) :
    holder Z (Function.update cred card.chars (some (credBytes Z id))) card = some id := by
  rw [holder, Function.update_self, Option.bind_some, credCborDecode_bytes]
  rfl

theorem holder_update_ne {card card' : CStr} (h : card' ≠ card) (v : Option (List UInt8)) :
    holder Z (Function.update cred card.chars v) card' = holder Z cred card' := by
  rw [holder, Function.update_of_ne fun he => h (cstr_chars_inj he), holder]

theorem holder_drop {card card' : CStr} {id : UInt32}
    (h : holder Z (Function.update cred card.chars none) card' = some id) :
    card' ≠ card ∧ holder Z cred card' = some id := by
  by_cases he : card' = card
  . subst he
    rw [holder, Function.update_self] at h
    cases h
  . exact ⟨he, holder_update_ne he none ▸ h⟩

theorem mem_map_chars {card : CStr} {cards : List CStr} :
    card.chars ∈ cards.map CStr.chars ↔ card ∈ cards := by
  rw [List.mem_map]
  constructor
  . rintro ⟨c, hc, he⟩
    exact cstr_chars_inj he ▸ hc
  . exact fun h => ⟨card, h, rfl⟩

theorem holder_cleared {cards : List CStr} {card : CStr} {id : UInt32}
    (h : holder Z (cleared cred cards) card = some id) :
    card ∉ cards ∧ holder Z cred card = some id := by
  rw [holder, cleared] at h
  split at h
  . cases h
  . next hne => exact ⟨fun hc => hne (mem_map_chars.mpr hc), h⟩

end KeyValueDb.Persondb
