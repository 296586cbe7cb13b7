import KeyValueDb.Persondb.Index

/-!
An operation that stopped half way is finished by the same call made again: whatever the first
attempts left behind, the two maps end up as one call without a failure would have left them.
-/

namespace KeyValueDb.Persondb

open Containers Kvdb

variable {Z : Zcbor} {db : Db} {people cred people' cred' : KvMap} {H : Hypothesis MapStore}
  {α β : Type}

/-! The steps of a call without a failure -/

-- Nothing is to fail, and the two maps are these.
abbrev SmoothAt (db : Db) (people cred : KvMap) : MapStore → Prop := Smooth (Tables db people cred)

abbrev sure (α : Type) (φ : α → Prop) (db : Db) (people cred : KvMap) : Post MapStore Errno α :=
  surely α φ (Tables db people cred)

theorem Spec.smoothly {x : S α} {f : α → S β} {φ : α → Prop} {P : MapStore → Prop}
    {J : Items → Prop} {Q : Post MapStore Errno β} (hx : Spec H P x (surely α φ J))
    (hf : ∀ a, φ a → Spec H (Smooth J) (f a) Q) : Spec H P (x >>= f) Q :=
  hx.bind (fun a => Spec.fact (hf a)) (fun _ _ h => h.elim) fun _ h => h.elim

theorem Spec.found_some {x : S α} {f : Except Errno α → S (Option α)} {a : α} {P : MapStore → Prop}
    {J : Items → Prop} (hx : Spec H P x (surely α (· = a) J)) (hok : ∀ a, f (.ok a) = pure (some a)) :
    Spec H P (Proc.attempt x >>= f) (surely _ (· = some a) J) := by
  refine hx.attempt.bind (fun r => ?_) (fun _ _ h => h.elim) fun _ h => h.elim
  cases r with
  | ok b =>
    rw [hok]
    exact Spec.ret fun s hs => ⟨congrArg some hs.1, hs.2⟩
  | error e => exact fun s hs _ => hs.elim

theorem Spec.found_none {x : S α} {f : Except Errno α → S (Option α)} {P : MapStore → Prop}
    {J : Items → Prop} (hx : Spec H P x (surelyErr α Errno.ENOENT J))
    (herr : f (.error Errno.ENOENT) = pure none) :
    Spec H P (Proc.attempt x >>= f) (surely _ (· = none) J) := by
  refine hx.attempt.bind (fun r => ?_) (fun _ _ h => h.elim) fun _ h => h.elim
  cases r with
  | ok b => exact fun s hs _ => hs.elim
  | error e =>
    refine Spec.fact ?_
    rintro rfl
    rw [herr]
    exact Spec.ret fun s hs => ⟨rfl, hs⟩

theorem personGet_smooth {id : UInt32} {p : Person} (h : Legible Z people id p) :
    Spec H (SmoothAt db people cred) (personGet Z db id) (sure _ (· = p) db people cred) := by
  obtain ⟨bytes, hb, hsz, hd⟩ := h
  refine Spec.smoothly (mapGet_smooth (fun b hb => hb.people) (by rw [personKey_length]; decide)
    (by rw [personKey_length]; decide) hb hsz) fun val hval => ?_
  rw [hval, hd]
  exact Spec.ret fun s hs => ⟨rfl, hs⟩

theorem personGet_smooth_none {id : UInt32} (h : people (personKey id) = none) :
    Spec H (SmoothAt db people cred) (personGet Z db id)
      (surelyErr _ Errno.ENOENT (Tables db people cred)) :=
  (mapGet_smooth_none (fun b hb => hb.people) (by rw [personKey_length]; decide)
    (by rw [personKey_length]; decide) h).bind (fun _ => fun s hs _ => hs.elim) (fun _ _ h => h)
    fun _ h => h

theorem personFind_smooth {id : UInt32} {o : Option Person}
    (h : Answers (Legible Z people id) (people (personKey id) = none) o) :
    Spec H (SmoothAt db people cred) (personFind Z db id) (sure _ (· = o) db people cred) := by
  cases o with
  | some p => exact Spec.found_some (personGet_smooth h) fun _ => rfl
  | none => exact Spec.found_none (personGet_smooth_none h) rfl

-- A card that can be looked for.
def Keyed (card : CStr) : Prop := card.chars.length ≠ 0 ∧ card.chars.length ≤ cardLen

theorem ownerFind_smooth {card : CStr} (hk : Keyed card) {o : Option UInt32}
    (h : Answers (Names Z cred card) (Missing cred card.chars) o) :
    Spec H (SmoothAt db people cred) (ownerFind Z db card) (sure _ (· = o) db people cred) := by
  have hlen := hk.2.trans cardLen_le
  cases o with
  | some id =>
    obtain ⟨bytes, hb, hsz, hd⟩ := h
    have hget : Spec H (SmoothAt db people cred) (cardOwner Z db card)
        (sure _ (· = id) db people cred) := by
      refine Spec.smoothly (mapGet_smooth (fun b hb => hb.cred) hk.1 hlen hb hsz) fun val hval => ?_
      rw [hval, hd]
      exact Spec.ret fun s hs => ⟨rfl, hs⟩
    exact Spec.found_some hget fun _ => rfl
  | none =>
    have hget : Spec H (SmoothAt db people cred) (cardOwner Z db card)
        (surelyErr _ Errno.ENOENT (Tables db people cred)) :=
      (mapGet_smooth_none (fun b hb => hb.cred) hk.1 hlen (h hlen)).bind
        (fun _ => fun s hs _ => hs.elim) (fun _ _ h => h) fun _ h => h
    exact Spec.found_none hget rfl

theorem encodes_length {p : Person} (h : Encodes Z p) : (personBytes Z p).length ≤ entLenMask := by
  rw [Encodes, personCborEncode] at h
  split at h
  . cases h
  . rw [encodeToks] at h
    split at h
    . cases h
    . next hsz => exact (not_lt.mp hsz).trans (by decide)

theorem indexes_length {id : UInt32} {card : CStr} (h : Indexes Z id card) :
    (credBytes Z id).length ≤ credCborMax := by
  have h1 := h.1
  rw [credCborEncode, encodeToks] at h1
  split at h1
  . cases h1
  . next hsz => exact not_lt.mp hsz

theorem personStore_smooth {p : Person} (h : Encodes Z p) :
    Spec H (SmoothAt db people cred) (personStore Z db p)
      (sure _ (fun _ => True) db (stored Z people p) cred) := by
  rw [personStore, h]
  exact mapSet_smooth (fun b hb => hb.people) (by rw [personKey_length]; decide)
    (by rw [personKey_length]; decide) (encodes_length h) fun b es hb hbinds => hb.people_update hbinds

theorem credPut_smooth {id : UInt32} {card : CStr} (h : Indexes Z id card) (hk : Keyed card) :
    Spec H (SmoothAt db people cred) (credPut Z db card id)
      (sure _ (fun _ => True) db people (Function.update cred card.chars (some (credBytes Z id)))) := by
  rw [credPut, h.1]
  exact mapSet_smooth (fun b hb => hb.cred) hk.1 (hk.2.trans cardLen_le)
    ((indexes_length h).trans (by decide)) fun b es hb hbinds => hb.cred_update hbinds

theorem credDrop_smooth {card : CStr} (hk : Keyed card) :
    Spec H (SmoothAt db people cred) (credDrop db card)
      (sure _ (fun _ => True) db people (Function.update cred card.chars none)) := by
  have hlen := hk.2.trans cardLen_le
  by_cases hnone : cred card.chars = none
  . have hsame : Function.update cred card.chars none = cred := by
      rw [← hnone, Function.update_eq_self]
    have hdel : Spec H (SmoothAt db people cred) (credDel db card)
        (surelyErr _ Errno.ENOENT (Tables db people cred)) :=
      mapDel_smooth_none (fun b hb => hb.cred) hk.1 hlen hnone
    refine hdel.attempt.bind (fun r => ?_) (fun _ _ h => h.elim) fun _ h => h.elim
    cases r with
    | ok a => exact fun s hs _ => hs.elim
    | error e =>
      refine Spec.fact fun he => ?_
      rw [hsame]
      exact Spec.ite (fun _ => Spec.ret fun s hs => ⟨trivial, hs⟩) fun hne => absurd he hne
  . have hdel : Spec H (SmoothAt db people cred) (credDel db card)
        (sure _ (fun _ => True) db people (Function.update cred card.chars none)) :=
      mapDel_smooth (fun b hb => hb.cred) hk.1 hlen hnone fun b es hb hbinds => hb.cred_update hbinds
    refine hdel.attempt.bind (fun r => ?_) (fun _ _ h => h.elim) fun _ h => h.elim
    cases r with
    | ok a => exact Spec.ret fun s hs => hs
    | error e => exact fun s hs _ => hs.elim

theorem dropCards_smooth {cards : List CStr} (hk : ∀ card ∈ cards, Keyed card) :
    Spec H (SmoothAt db people cred) (dropCards db cards)
      (sure _ (fun _ => True) db people (cleared cred cards)) := by
  induction cards generalizing cred with
  | nil =>
    rw [cleared_nil]
    exact Spec.ret fun s hs => ⟨trivial, hs⟩
  | cons card cards ih =>
    rw [cleared_cons]
    exact Spec.smoothly (credDrop_smooth (hk card List.mem_cons_self)) fun _ _ =>
      ih fun c hc => hk c (List.mem_cons_of_mem _ hc)

theorem indexCards_smooth {id : UInt32} {cards : List CStr} (hk : ∀ card ∈ cards, Keyed card)
    (hi : ∀ card ∈ cards, Indexes Z id card) :
    Spec H (SmoothAt db people cred) (indexCards Z db id cards)
      (sure _ (fun _ => True) db people (indexed Z cred id cards)) := by
  induction cards generalizing cred with
  | nil =>
    rw [indexed_nil]
    exact Spec.ret fun s hs => ⟨trivial, hs⟩
  | cons card cards ih =>
    rw [indexed_cons]
    exact Spec.smoothly (credPut_smooth (hi card List.mem_cons_self) (hk card List.mem_cons_self))
      fun _ _ => ih (fun c hc => hk c (List.mem_cons_of_mem _ hc))
        fun c hc => hi c (List.mem_cons_of_mem _ hc)

/-! Calls that are made again -/

-- The call is through: it has told `φ`, and the maps are `people` and `cred`. `fin` are the errors that
-- say so too.
def redoPost (db : Db) (R : KvMap → KvMap → Prop) (φ : Prop) (fin : Errno → Prop)
    (people cred : KvMap) : Post MapStore Errno Unit where
  ok _ s := φ ∧ At db R people cred s
  err e s := Kept db R s ∧ (fin e → φ ∧ At db R people cred s)
  cut := Kept db R

-- Calls of `x` on the maps `people` and `cred` keep the maps in `R` until one is through, and then
-- they are `people'` and `cred'`; so they are after one call without a failure.
structure Redo (db : Db) (x : S Unit) (fin : Errno → Prop) (people cred people' cred' : KvMap)
    (R : KvMap → KvMap → Prop) (φ : Prop) : Prop where
  start : R people cred
  goal : φ → R people' cred'
  again : Spec anyHistory (Kept db R) x (redoPost db R φ fin people' cred')
  once : φ → Spec anyHistory (SmoothAt db people cred) x
    (.exits (Smooth (Tables db people' cred')) (Smooth (Tables db people' cred'))
      (Smooth (Tables db people' cred')))

def noErrno (_ : Errno) : Prop := False

theorem redoPost_admits {R : KvMap → KvMap → Prop} {φ : Prop} {fin : Errno → Prop}
    (hfin : ∀ e, fin e → e = Errno.ENOENT) : Admits db R (redoPost db R φ fin people cred) :=
  ⟨fun e _ he hs => ⟨hs, fun hf => absurd (hfin e hf) he.1⟩, fun _ hs => hs⟩

-- `c` is `a` or `b` at each key.
def Blend (a b c : KvMap) : Prop := ∀ k, c k = a k ∨ c k = b k

theorem Blend.left (a b : KvMap) : Blend a b a := fun _ => .inl rfl

theorem Blend.drop {c : KvMap} {cards : List CStr} (h : Blend cred (cleared cred cards) c)
    {card : CStr} (hc : card ∈ cards) :
    Blend cred (cleared cred cards) (Function.update c card.chars none) := by
  intro k
  by_cases hk : k = card.chars
  . subst hk
    rw [Function.update_self, cleared, if_pos (mem_map_chars.mpr hc)]
    exact .inr rfl
  . rw [Function.update_of_ne hk]
    exact h k

theorem Blend.put {c : KvMap} {id : UInt32} {cards : List CStr}
    (h : Blend cred (indexed Z cred id cards) c) {card : CStr} (hc : card ∈ cards) :
    Blend cred (indexed Z cred id cards)
      (Function.update c card.chars (some (credBytes Z id))) := by
  intro k
  by_cases hk : k = card.chars
  . subst hk
    rw [Function.update_self, indexed, if_pos (mem_map_chars.mpr hc)]
    exact .inr rfl
  . rw [Function.update_of_ne hk]
    exact h k

theorem Blend.cleared_eq {c : KvMap} {cards : List CStr} (h : Blend cred (cleared cred cards) c) :
    cleared c cards = cleared cred cards := by
  funext k
  by_cases hk : k ∈ cards.map CStr.chars
  . rw [cleared, cleared, if_pos hk, if_pos hk]
  . have hsame := h k
    rw [cleared, if_neg hk, or_self] at hsame
    rw [cleared, cleared, if_neg hk, if_neg hk, hsame]

theorem Blend.indexed_eq {c : KvMap} {id : UInt32} {cards : List CStr}
    (h : Blend cred (indexed Z cred id cards) c) :
    indexed Z c id cards = indexed Z cred id cards := by
  funext k
  by_cases hk : k ∈ cards.map CStr.chars
  . rw [indexed, indexed, if_pos hk, if_pos hk]
  . have hsame := h k
    rw [indexed, if_neg hk, or_self] at hsame
    rw [indexed, indexed, if_neg hk, if_neg hk, hsame]

theorem stored_twice (p : Person) : stored Z (stored Z people p) p = stored Z people p := by
  rw [stored, stored, Function.update_idem]

-- What is found is what the map has.
theorem answers_record {id : UInt32} {o : Option Person}
    (h : Answers (Legible Z people id) (people (personKey id) = none) o) :
    o = record Z people id := by
  cases o with
  | some p => exact (Legible.record h).symm
  | none => rw [record, show people (personKey id) = none from h, Option.bind_none]

/-! Putting a person -/

-- What a call that is through tells of its person and of the maps before it.
structure Puttable (Z : Zcbor) (people : KvMap) (p : Person) : Prop where
  cards : p.cards.length ≤ cardsMax
  perms : p.perms.length ≤ permsMax
  valid : p.cards.all cardValid = true
  found : Answers (Legible Z people p.id) (people (personKey p.id) = none) (record Z people p.id)
  named : ∀ card ∈ withdrawn (record Z people p.id) p, card.chars.length ≠ 0
  encodes : Encodes Z p

theorem Puttable.shaped {p : Person} (h : Puttable Z people p) : p.Shaped :=
  ⟨h.perms, h.cards, fun card hc =>
    cardValid_le (by simpa using List.all_eq_true.mp h.valid card hc)⟩

-- The maps while a person is put: first the index loses the cards that go, then the record changes,
-- then the index gets the cards of the new one.
def Putting (Z : Zcbor) (people0 cred0 : KvMap) (p : Person) (people cred : KvMap) : Prop :=
  let gone := cleared cred0 (withdrawn (record Z people0 p.id) p)
  people = people0 ∧ Blend cred0 gone cred ∨
    Puttable Z people0 p ∧ people = stored Z people0 p ∧
      Blend gone (indexed Z gone p.id p.cards) cred

theorem withdrawn_short {id : UInt32} {p : Person} :
    ∀ card ∈ withdrawn (record Z people id) p, card.chars.length ≤ cardLen := by
  intro card hc
  cases hrec : record Z people id with
  | none =>
    rw [hrec] at hc
    cases hc
  | some q =>
    rw [hrec] at hc
    exact (record_shaped hrec).short card (List.mem_filter.mp hc).1

theorem withdrawn_self {p : Person} (h : p.Shaped) : withdrawn (some p.clip) p = [] := by
  rw [withdrawn, Option.map_some, Option.getD_some, h.clip_cards]
  exact List.filter_eq_nil_iff.mpr fun card hc => by simpa using hc

theorem personPut_redo (p : Person) :
    Redo db (personPut Z db p) noErrno people cred (stored Z people p)
      (indexed Z (cleared cred (withdrawn (record Z people p.id) p)) p.id p.cards)
      (Putting Z people cred p)
      (Puttable Z people p ∧ ∀ card ∈ p.cards, Indexes Z p.id card) := by
  set drops := withdrawn (record Z people p.id) p with hdrops
  have hshort : ∀ card ∈ drops, card.chars.length ≤ cardLen := withdrawn_short
  refine ⟨.inl ⟨rfl, Blend.left _ _⟩, fun h => .inr ⟨h.1, rfl, fun k => .inr rfl⟩, ?_, ?_⟩
  . refine Spec.within fun people1 cred1 hR => ?_
    have hQ : Admits db (Putting Z people cred p) (redoPost db (Putting Z people cred p)
        (Puttable Z people p ∧ ∀ card ∈ p.cards, Indexes Z p.id card) noErrno (stored Z people p)
        (indexed Z (cleared cred drops) p.id p.cards)) := redoPost_admits fun _ h => h.elim
    have hfail : ∀ s, At db (Putting Z people cred p) people1 cred1 s → (redoPost db
        (Putting Z people cred p) (Puttable Z people p ∧ ∀ card ∈ p.cards, Indexes Z p.id card)
        noErrno (stored Z people p) (indexed Z (cleared cred drops) p.id p.cards)).err Errno.EINVAL s :=
      fun s hs => ⟨hs.kept hR, fun h => h.elim⟩
    refine Spec.ite (fun _ => Spec.fail hfail) fun hcounts => ?_
    refine Spec.ite (fun _ => Spec.fail hfail) fun hvalid => ?_
    rw [not_or, not_lt, not_lt] at hcounts
    refine Spec.ask hQ hR (personFind_spec p.id) fun old hold => ?_
    -- from the new record on, a call goes the same way from both phases
    have hindex : ∀ cred2, Puttable Z people p →
        Blend (cleared cred drops) (indexed Z (cleared cred drops) p.id p.cards) cred2 →
        Spec anyHistory (At db (Putting Z people cred p) (stored Z people p) cred2)
          (indexCards Z db p.id p.cards) (redoPost db (Putting Z people cred p)
            (Puttable Z people p ∧ ∀ card ∈ p.cards, Indexes Z p.id card) noErrno (stored Z people p)
            (indexed Z (cleared cred drops) p.id p.cards)) := by
      intro cred2 hput hblend
      have hspec := (@indexCards_spec Z db (Putting Z people cred p) (stored Z people p) _ anyHistory (Blend (cleared cred drops) (indexed Z (cleared cred drops) p.id p.cards)) p.id p.cards)
        (fun c hc => .inr ⟨hput, rfl, hc⟩) hblend fun c hc card hmem => hc.put hmem
      rw [hblend.indexed_eq] at hspec
      exact Spec.last hQ hspec fun hi s hs => ⟨⟨hput, hi⟩, hs⟩
    have hold' := answers_record hold
    rcases hR with ⟨rfl, hblend⟩ | ⟨hput, rfl, hblend⟩
    . rw [hold']
      have hdrop := (@dropCards_spec db (Putting Z people1 cred p) people1 _ anyHistory (Blend cred (cleared cred drops)) drops)
        (fun card hc => (hshort card hc).trans cardLen_le) (fun c hc => .inl ⟨rfl, hc⟩) hblend
        fun c hc card hmem => hc.drop hmem
      rw [hblend.cleared_eq] at hdrop
      refine Spec.put hQ hdrop fun hnamed => ?_
      have hput : Encodes Z p → Puttable Z people1 p := fun he =>
        ⟨hcounts.1, hcounts.2, by simpa using hvalid, hold' ▸ hold, hnamed, he⟩
      refine Spec.put hQ (personStore_spec (.inl ⟨rfl, fun k => .inr rfl⟩) p fun he =>
        .inr ⟨hput he, rfl, Blend.left _ _⟩) fun he => ?_
      exact hindex _ (hput he) (Blend.left _ _)
    . have hrec := (@record_stored Z people) hput.shaped
      rw [hold', hrec, withdrawn_self hput.shaped]
      have hstay : Putting Z people cred p (stored Z people p) cred1 := .inr ⟨hput, rfl, hblend⟩
      refine Spec.put hQ (dropCards_spec (I := (· = cred1)) nofun (fun c hc => hc ▸ hstay) rfl nofun)
        fun _ => ?_
      rw [cleared_nil]
      refine Spec.put hQ (personStore_spec hstay p fun _ => by rwa [stored_twice]) fun _ => ?_
      rw [stored_twice]
      exact hindex _ hput hblend
  . rintro ⟨hput, hindexes⟩
    have hvalid : ∀ card ∈ p.cards, Keyed card := by
      intro card hc
      have hv := of_decide_eq_true (List.all_eq_true.mp hput.valid card hc)
      exact ⟨by omega, hv.2⟩
    refine Spec.ite (fun h => ?_) fun _ => ?_
    . rcases h with h | h
      . exact absurd hput.cards (by omega)
      . exact absurd hput.perms (by omega)
    refine Spec.ite (fun h => absurd hput.valid (by simp [h])) fun _ => ?_
    refine Spec.smoothly (personFind_smooth hput.found) fun o ho => ?_
    rw [ho]
    refine Spec.smoothly (dropCards_smooth fun card hc => ⟨hput.named card hc, hshort card hc⟩) fun _ _ => ?_
    refine Spec.smoothly (personStore_smooth hput.encodes) fun _ _ => ?_
    exact (indexCards_smooth hvalid hindexes).conseq (fun s hs => hs) (fun _ s hs => hs.2)
      (fun e s hs => hs.elim) fun s hs => hs.elim

/-! Deleting a person -/

theorem Legible.unique {id : UInt32} {p q : Person} (hp : Legible Z people id p)
    (hq : Legible Z people id q) : p = q :=
  Option.some.inj (hp.record.symm.trans hq.record)

theorem Legible.ne_none {id : UInt32} {p : Person} (h : Legible Z people id p) :
    people (personKey id) ≠ none := by
  obtain ⟨bytes, hb, -⟩ := h
  rw [hb]
  exact nofun

-- The maps while a person is deleted.
def Deleting (id : UInt32) (p : Person) (people0 cred0 people cred : KvMap) (φ : Prop) : Prop :=
  people = people0 ∧ Blend cred0 (cleared cred0 p.cards) cred ∨
    φ ∧ people = Function.update people0 (personKey id) none ∧ cred = cleared cred0 p.cards

theorem personDelete_redo (id : UInt32) {p : Person} (hp : Legible Z people id p) :
    Redo db (personDelete Z db id) (· = Errno.ENOENT) people cred
      (Function.update people (personKey id) none) (cleared cred p.cards)
      (fun people1 cred1 =>
        Deleting id p people cred people1 cred1 (∀ card ∈ p.cards, card.chars.length ≠ 0))
      (∀ card ∈ p.cards, card.chars.length ≠ 0) := by
  have hshort := (record_shaped hp.record).short
  refine ⟨.inl ⟨rfl, Blend.left _ _⟩, fun h => .inr ⟨h, rfl, rfl⟩, ?_, fun hnamed => ?_⟩
  . refine Spec.within fun people1 cred1 hR => ?_
    rcases hR with ⟨rfl, hblend⟩ | ⟨hnamed, rfl, rfl⟩
    . refine Spec.seek (redoPost_admits fun _ h => h) (.inl ⟨rfl, hblend⟩) (personGet_spec id)
        (fun h => absurd h hp.ne_none) fun q hq => ?_
      obtain rfl := hp.unique hq
      have hdrop := (@dropCards_spec db (fun people1' cred1' => Deleting id p people1 cred people1' cred1'
          (∀ card ∈ p.cards, card.chars.length ≠ 0)) people1 _ anyHistory (Blend cred (cleared cred p.cards)) p.cards)
        (fun card hc => (hshort card hc).trans cardLen_le) (fun c hc => .inl ⟨rfl, hc⟩) hblend
        fun c hc card hmem => hc.drop hmem
      rw [hblend.cleared_eq] at hdrop
      refine Spec.put (redoPost_admits fun _ h => h) hdrop fun hnamed => ?_
      refine Spec.conseq ((@mapDel_spec anyHistory (Within db _) (Tables db people1 (cleared cred p.cards)) (Tables db (Function.update people1 (personKey id) none) (cleared cred p.cards)))
        (fun b hb => hb.people) (fun b hb => hb.within (.inl ⟨rfl, fun k => .inr rfl⟩))
        (fun b hb => hb.within (.inr ⟨hnamed, rfl, rfl⟩)) fun b es hb hbinds =>
          hb.people_update hbinds) (fun s hs => hs) ?_ ?_ fun s hs => hs
      . exact fun _ s hs => ⟨hnamed, hs.2⟩
      . rintro e s (⟨-, ⟨-, hmiss⟩, -⟩ | ⟨he, hs⟩)
        . exact absurd (hmiss (by rw [personKey_length]; decide)) hp.ne_none
        . exact ⟨hs, fun hent => absurd hent he.1⟩
    . have hnone : Function.update people (personKey id) none (personKey id) = none :=
        Function.update_self _ _ _
      have hR : Deleting id p people cred (Function.update people (personKey id) none)
          (cleared cred p.cards) (∀ card ∈ p.cards, card.chars.length ≠ 0) := .inr ⟨hnamed, rfl, rfl⟩
      exact Spec.seek (redoPost_admits fun _ h => h) hR (personGet_spec id)
        (fun _ s hs => ⟨hs.kept hR, fun _ => ⟨hnamed, hs⟩⟩) fun q hq => absurd hnone hq.ne_none
  . refine Spec.smoothly (personGet_smooth hp) fun q hq => ?_
    rw [hq]
    refine Spec.smoothly (dropCards_smooth fun card hc => ⟨hnamed card hc, hshort card hc⟩) fun _ _ => ?_
    refine Spec.conseq ((@mapDel_smooth anyHistory _ (Tables db (Function.update people (personKey id) none) (cleared cred p.cards)))
      (fun b hb => hb.people) (by rw [personKey_length]; decide) (by rw [personKey_length]; decide)
      hp.ne_none fun b es hb hbinds => hb.people_update hbinds) (fun s hs => hs) (fun _ s hs => hs.2)
      (fun e s hs => hs.elim) fun s hs => hs.elim

-- There is no record.
theorem personDelete_redo_none (id : UInt32) (h : people (personKey id) = none) :
    Redo db (personDelete Z db id) (· = Errno.ENOENT) people cred people cred
      (fun people1 cred1 => people1 = people ∧ cred1 = cred) True := by
  refine ⟨⟨rfl, rfl⟩, fun _ => ⟨rfl, rfl⟩, ?_, fun _ => ?_⟩
  . refine Spec.within fun people1 cred1 hR => ?_
    obtain ⟨rfl, rfl⟩ := hR
    exact Spec.seek (redoPost_admits fun _ h => h) ⟨rfl, rfl⟩ (personGet_spec id)
      (fun _ s hs => ⟨hs.kept ⟨rfl, rfl⟩, fun _ => ⟨trivial, hs⟩⟩) fun q hq => absurd h hq.ne_none
  . exact (personGet_smooth_none h).bind (fun _ => fun s hs _ => hs.elim) (fun _ _ h => h.2)
      fun _ h => h.elim

-- A record that cannot be read stops every call.
theorem personDelete_redo_illegible (id : UInt32) (hno : ∀ p, ¬ Legible Z people id p)
    (hsome : people (personKey id) ≠ none) :
    Redo db (personDelete Z db id) (· = Errno.ENOENT) people cred people cred
      (fun people1 cred1 => people1 = people ∧ cred1 = cred) False := by
  refine ⟨⟨rfl, rfl⟩, fun h => h.elim, ?_, fun h => h.elim⟩
  refine Spec.within fun people1 cred1 hR => ?_
  obtain ⟨rfl, rfl⟩ := hR
  exact Spec.seek (redoPost_admits fun _ h => h) ⟨rfl, rfl⟩ (personGet_spec id)
    (fun h => absurd h hsome) fun q hq => absurd hq (hno q)

/-! Assigning a card -/

def withCard (p : Person) (card : CStr) : Person := { p with cards := p.cards ++ [card] }

def assigned (Z : Zcbor) (people : KvMap) (p : Person) (card : CStr) : KvMap :=
  if card ∈ p.cards then people else stored Z people (withCard p card)

-- What a call that is through tells of the maps before it.
structure Assignable (Z : Zcbor) (people cred : KvMap) (id : UInt32) (p : Person) (card : CStr) :
    Prop where
  legible : Legible Z people id p
  valid : cardValid card = true
  free : ∃ o, Answers (Names Z cred card) (Missing cred card.chars) o ∧ ¬ o.any (· != id) = true
  room : card ∉ p.cards → ¬ cardsMax ≤ p.cards.length
  encodes : card ∉ p.cards → Encodes Z (withCard p card)

def indexedOne (Z : Zcbor) (cred : KvMap) (id : UInt32) (card : CStr) : KvMap :=
  Function.update cred card.chars (some (credBytes Z id))

def Assigning (Z : Zcbor) (people0 cred0 : KvMap) (id : UInt32) (p : Person) (card : CStr)
    (people cred : KvMap) : Prop :=
  people = people0 ∧ cred = cred0 ∨
    Assignable Z people0 cred0 id p card ∧ people = assigned Z people0 p card ∧
      (cred = cred0 ∨ cred = indexedOne Z cred0 id card)

theorem cardValid_keyed {card : CStr} (h : cardValid card = true) : Keyed card := by
  have hv := of_decide_eq_true h
  exact ⟨by omega, hv.2⟩

theorem withCard_shaped {p : Person} {card : CStr} (h : p.Shaped) (hv : cardValid card = true)
    (hroom : ¬ cardsMax ≤ p.cards.length) : (withCard p card).Shaped := by
  refine ⟨h.perms, ?_, fun c hc => ?_⟩
  . simp only [withCard, List.length_append, List.length_singleton]
    omega
  . rcases List.mem_append.mp hc with hc | hc
    . exact h.short c hc
    . exact List.mem_singleton.mp hc ▸ (cardValid_keyed hv).2

-- The record that a second call finds: the new one, or, of a record under a key that is not its own,
-- the old one.
theorem Legible.of_stored {id : UInt32} {p q r : Person} (hp : Legible Z people id p)
    (hq : q.Shaped) (hr : Legible Z (stored Z people q) id r) :
    q.id = id ∧ r.cards = q.cards ∨ q.id ≠ id ∧ r = p := by
  by_cases he : q.id = id
  . subst he
    have hrec := hr.record
    rw [record_stored hq] at hrec
    cases hrec
    exact .inl ⟨rfl, hq.clip_cards⟩
  . have hrec := hr.record
    rw [record_stored_ne (Ne.symm he), hp.record] at hrec
    cases hrec
    exact .inr ⟨he, rfl⟩

theorem indexedOne_twice (id : UInt32) (card : CStr) :
    indexedOne Z (indexedOne Z cred id card) id card = indexedOne Z cred id card := by
  rw [indexedOne, indexedOne, Function.update_idem]

theorem cardAssign_redo (id : UInt32) (card : CStr) {p : Person} (hp : Legible Z people id p) :
    Redo db (cardAssign Z db id card) noErrno people cred (assigned Z people p card)
      (indexedOne Z cred id card) (Assigning Z people cred id p card)
      (Assignable Z people cred id p card ∧ Indexes Z id card) := by
  refine ⟨.inl ⟨rfl, rfl⟩, fun h => .inr ⟨h.1, rfl, .inr rfl⟩, ?_, ?_⟩
  . refine Spec.within fun people1 cred1 hR => ?_
    have hQ : Admits db (Assigning Z people cred id p card) (redoPost db
        (Assigning Z people cred id p card) (Assignable Z people cred id p card ∧ Indexes Z id card)
        noErrno (assigned Z people p card) (indexedOne Z cred id card)) :=
      redoPost_admits fun _ h => h.elim
    have hfail : ∀ e s, At db (Assigning Z people cred id p card) people1 cred1 s → (redoPost db
        (Assigning Z people cred id p card) (Assignable Z people cred id p card ∧ Indexes Z id card)
        noErrno (assigned Z people p card) (indexedOne Z cred id card)).err e s :=
      fun e s hs => ⟨hs.kept hR, fun h => h.elim⟩
    refine Spec.ite (fun _ => Spec.fail (hfail _)) fun hvalid => ?_
    have hvalid' : cardValid card = true := by simpa using hvalid
    refine Spec.ask hQ hR (ownerFind_spec card) fun o ho => ?_
    refine Spec.ite (fun _ => Spec.fail (hfail _)) fun hfree => ?_
    -- the last write, from both phases
    have hlast : ∀ people2 cred2, people2 = assigned Z people p card →
        Assignable Z people cred id p card → (cred2 = cred ∨ cred2 = indexedOne Z cred id card) →
        Spec anyHistory (At db (Assigning Z people cred id p card) people2 cred2)
          (credPut Z db card id) (redoPost db (Assigning Z people cred id p card)
            (Assignable Z people cred id p card ∧ Indexes Z id card) noErrno (assigned Z people p card)
            (indexedOne Z cred id card)) := by
      rintro people2 cred2 rfl hok hcred
      have hput : indexedOne Z cred2 id card = indexedOne Z cred id card := by
        rcases hcred with rfl | rfl
        . rfl
        . exact indexedOne_twice id card
      have hspec := (@credPut_spec Z db (Assigning Z people cred id p card) (assigned Z people p card) cred2 anyHistory) (.inr ⟨hok, rfl, hcred⟩)
        card id (.inr ⟨hok, rfl, .inr hput⟩)
      rw [show Function.update cred2 card.chars (some (credBytes Z id)) = _ from hput] at hspec
      exact Spec.last hQ hspec fun hi s hs => ⟨⟨hok, hi⟩, hs⟩
    refine Spec.seek hQ hR (personGet_spec id) (fun _ => hfail _) fun q hq => ?_
    rcases hR with ⟨rfl, rfl⟩ | ⟨hok, rfl, hcred⟩
    . obtain rfl := hp.unique hq
      refine Spec.ite (fun hc => ?_) fun hc => Spec.ite (fun _ => Spec.fail (hfail _)) fun hroom => ?_
      . have hok : Assignable Z people1 cred1 id p card :=
          ⟨hp, hvalid', ⟨o, ho, hfree⟩, fun h => absurd hc h, fun h => absurd hc h⟩
        exact hlast people1 cred1 (if_pos hc).symm hok (.inl rfl)
      . have hnew : assigned Z people1 p card = stored Z people1 (withCard p card) := if_neg hc
        have hok : Encodes Z (withCard p card) → Assignable Z people1 cred1 id p card := fun he =>
          ⟨hp, hvalid', ⟨o, ho, hfree⟩, fun _ => hroom, fun _ => he⟩
        refine Spec.put hQ (personStore_spec (.inl ⟨rfl, rfl⟩) (withCard p card) fun he =>
          .inr ⟨hok he, hnew.symm, .inl rfl⟩) fun he => ?_
        exact hlast _ cred1 hnew.symm (hok he) (.inl rfl)
    . by_cases hc : card ∈ p.cards
      . have hsame : assigned Z people p card = people := if_pos hc
        rw [hsame] at hq
        obtain rfl := hp.unique hq
        exact Spec.ite (fun _ => hlast _ cred1 rfl hok hcred) fun h => absurd hc h
      . have hnew : assigned Z people p card = stored Z people (withCard p card) := if_neg hc
        have hshape := withCard_shaped (record_shaped hp.record) hvalid' (hok.room hc)
        rw [hnew] at hq
        rcases hp.of_stored hshape hq with ⟨-, hcards⟩ | ⟨-, rfl⟩
        . refine Spec.ite (fun _ => hlast _ cred1 rfl hok hcred) fun h => ?_
          rw [hcards] at h
          exact absurd (List.mem_append_right _ List.mem_cons_self) h
        . refine Spec.ite (fun h => absurd h hc) fun _ => ?_
          refine Spec.ite (fun _ => Spec.fail (hfail _)) fun _ => ?_
          have hstay : Assigning Z people cred id q card (assigned Z people q card) cred1 :=
            .inr ⟨hok, rfl, hcred⟩
          have hagain : stored Z (assigned Z people q card) (withCard q card) =
              assigned Z people q card := by rw [hnew, stored_twice]
          refine Spec.put hQ (personStore_spec hstay (withCard q card) fun _ => by
            rw [hagain]
            exact hstay) fun _ => ?_
          rw [hagain]
          exact hlast _ cred1 rfl hok hcred
  . rintro ⟨hok, hi⟩
    obtain ⟨o, ho, hfree⟩ := hok.free
    have hkey := cardValid_keyed hok.valid
    refine Spec.ite (fun h => absurd hok.valid (by simp [h])) fun _ => ?_
    refine Spec.smoothly (ownerFind_smooth hkey ho) fun o' ho' => ?_
    rw [ho']
    refine Spec.ite (fun h => absurd h hfree) fun _ => ?_
    refine Spec.smoothly (personGet_smooth hp) fun q hq => ?_
    rw [hq]
    have hput : ∀ people1, Spec anyHistory (SmoothAt db people1 cred) (credPut Z db card id)
        (.exits (Smooth (Tables db people1 (indexedOne Z cred id card)))
          (Smooth (Tables db people1 (indexedOne Z cred id card)))
          (Smooth (Tables db people1 (indexedOne Z cred id card)))) :=
      fun people1 => (credPut_smooth hi hkey).conseq (fun s hs => hs) (fun _ s hs => hs.2)
        (fun e s hs => hs.elim) fun s hs => hs.elim
    refine Spec.ite (fun hc => ?_) fun hc => Spec.ite (fun h => absurd h (hok.room hc)) fun _ => ?_
    . rw [assigned, if_pos hc]
      exact hput people
    . rw [assigned, if_neg hc]
      exact Spec.smoothly (personStore_smooth (hok.encodes hc)) fun _ _ => hput _

theorem cardAssign_redo_illegible (id : UInt32) (card : CStr)
    (hno : ∀ p, ¬ Legible Z people id p) :
    Redo db (cardAssign Z db id card) noErrno people cred people cred
      (fun people1 cred1 => people1 = people ∧ cred1 = cred) False := by
  refine ⟨⟨rfl, rfl⟩, fun h => h.elim, ?_, fun h => h.elim⟩
  refine Spec.within fun people1 cred1 hR => ?_
  obtain ⟨rfl, rfl⟩ := hR
  have hQ : Admits db (fun people cred => people = people1 ∧ cred = cred1)
      (redoPost db (fun people cred => people = people1 ∧ cred = cred1) False noErrno people1 cred1) :=
    redoPost_admits fun _ h => h.elim
  refine Spec.ite (fun _ => Spec.fail fun s hs => ⟨hs.kept ⟨rfl, rfl⟩, fun h => h.elim⟩) fun _ => ?_
  refine Spec.ask hQ ⟨rfl, rfl⟩ (ownerFind_spec card) fun o _ => ?_
  refine Spec.ite (fun _ => Spec.fail fun s hs => ⟨hs.kept ⟨rfl, rfl⟩, fun h => h.elim⟩) fun _ => ?_
  exact Spec.seek hQ ⟨rfl, rfl⟩ (personGet_spec id)
    (fun _ s hs => ⟨hs.kept ⟨rfl, rfl⟩, fun h => h.elim⟩) fun q hq => absurd hq (hno q)

/-! Revoking a card -/

def withoutCard (p : Person) (card : CStr) : Person := { p with cards := p.cards.filter (· ≠ card) }

def revoked (Z : Zcbor) (people : KvMap) (p : Person) (card : CStr) : KvMap :=
  if card ∈ p.cards then stored Z people (withoutCard p card) else people

def droppedOne (cred : KvMap) (card : CStr) : KvMap := Function.update cred card.chars none

structure Revocable (Z : Zcbor) (people : KvMap) (id : UInt32) (p : Person) (card : CStr) : Prop where
  legible : Legible Z people id p
  valid : cardValid card = true
  encodes : card ∈ p.cards → Encodes Z (withoutCard p card)

def Revoking (Z : Zcbor) (people0 cred0 : KvMap) (id : UInt32) (p : Person) (card : CStr)
    (people cred : KvMap) : Prop :=
  people = people0 ∧ (cred = cred0 ∨ cred = droppedOne cred0 card) ∨
    Revocable Z people0 id p card ∧ people = revoked Z people0 p card ∧ cred = droppedOne cred0 card

theorem withoutCard_shaped {p : Person} (h : p.Shaped) (card : CStr) : (withoutCard p card).Shaped :=
  ⟨h.perms, (List.length_filter_le _ _).trans h.cards,
    fun c hc => h.short c (List.mem_filter.mp hc).1⟩

theorem not_mem_withoutCard (p : Person) (card : CStr) : card ∉ (withoutCard p card).cards := by
  intro h
  simpa using (List.mem_filter.mp h).2

theorem droppedOne_twice (card : CStr) : droppedOne (droppedOne cred card) card = droppedOne cred card := by
  rw [droppedOne, droppedOne, Function.update_idem]

theorem cardRevokeFrom_redo (id : UInt32) (card : CStr) {p : Person} (hp : Legible Z people id p) :
    Redo db (cardRevokeFrom Z db id card) noErrno people cred (revoked Z people p card)
      (droppedOne cred card) (Revoking Z people cred id p card) (Revocable Z people id p card) := by
  refine ⟨.inl ⟨rfl, .inl rfl⟩, fun h => .inr ⟨h, rfl, rfl⟩, ?_, fun hok => ?_⟩
  . refine Spec.within fun people1 cred1 hR => ?_
    have hQ : Admits db (Revoking Z people cred id p card) (redoPost db
        (Revoking Z people cred id p card) (Revocable Z people id p card) noErrno
        (revoked Z people p card) (droppedOne cred card)) := redoPost_admits fun _ h => h.elim
    refine Spec.ite (fun _ => Spec.fail fun s hs => ⟨hs.kept hR, fun h => h.elim⟩) fun hvalid => ?_
    have hvalid' : cardValid card = true := by simpa using hvalid
    have hkey := cardValid_keyed hvalid'
    have hcred : droppedOne cred1 card = droppedOne cred card := by
      rcases hR with ⟨-, rfl | rfl⟩ | ⟨-, -, rfl⟩
      . rfl
      . exact droppedOne_twice card
      . exact droppedOne_twice card
    have hR' : Revoking Z people cred id p card people1 (droppedOne cred card) :=
      hR.imp (fun h => ⟨h.1, .inr rfl⟩) fun h => ⟨h.1, h.2.1, rfl⟩
    have hdrop := (@credDrop_spec db _ _ _ anyHistory) hR (hkey.2.trans cardLen_le)
      (show Revoking Z people cred id p card people1 (droppedOne cred1 card) from hcred ▸ hR')
    rw [show Function.update cred1 card.chars none = _ from hcred] at hdrop
    refine Spec.put hQ hdrop fun _ => ?_
    refine Spec.seek hQ hR' (personGet_spec id) (fun _ s hs => ⟨hs.kept hR', fun h => h.elim⟩)
      fun q hq => ?_
    -- the record does not list the card any more
    have hdone : ∀ people2, people2 = revoked Z people p card → Revocable Z people id p card →
        Spec anyHistory (At db (Revoking Z people cred id p card) people2 (droppedOne cred card))
          (pure ()) (redoPost db (Revoking Z people cred id p card) (Revocable Z people id p card)
            noErrno (revoked Z people p card) (droppedOne cred card)) := by
      rintro people2 rfl hok
      exact Spec.ret fun s hs => ⟨hok, hs⟩
    -- it does
    have hstore : people1 = people ∨ Revocable Z people id p card ∧ people1 = revoked Z people p card →
        card ∈ p.cards → Spec anyHistory
          (At db (Revoking Z people cred id p card) people1 (droppedOne cred card))
          (personStore Z db (withoutCard p card)) (redoPost db (Revoking Z people cred id p card)
            (Revocable Z people id p card) noErrno (revoked Z people p card)
            (droppedOne cred card)) := by
      intro hphase hc
      have hnew : revoked Z people p card = stored Z people (withoutCard p card) := if_pos hc
      have hagain : stored Z people1 (withoutCard p card) = revoked Z people p card := by
        rcases hphase with rfl | ⟨-, rfl⟩
        . exact hnew.symm
        . rw [hnew, stored_twice]
      have hspec := (@personStore_spec _ db _ _ _ anyHistory) hR' (withoutCard p card) fun he =>
        .inr ⟨⟨hp, hvalid', fun _ => he⟩, hagain, rfl⟩
      rw [hagain] at hspec
      exact Spec.last hQ hspec fun he s hs => ⟨⟨hp, hvalid', fun _ => he⟩, hs⟩
    rcases hR with ⟨rfl, -⟩ | ⟨hok, rfl, -⟩
    . obtain rfl := hp.unique hq
      refine Spec.ite (fun hc => ?_) fun hc => hstore (.inl rfl) (not_not.mp hc)
      exact hdone people1 (if_neg hc).symm ⟨hp, hvalid', fun h => absurd h hc⟩
    . by_cases hc : card ∈ p.cards
      . have hnew : revoked Z people p card = stored Z people (withoutCard p card) := if_pos hc
        rw [hnew] at hq
        rcases hp.of_stored (withoutCard_shaped (record_shaped hp.record) card) hq with ⟨-, hcards⟩ | ⟨-, rfl⟩
        . refine Spec.ite (fun _ => hdone _ rfl hok) fun h => ?_
          rw [hcards] at h
          exact absurd (not_mem_withoutCard p card) h
        . exact Spec.ite (fun h => absurd hc h) fun _ => hstore (.inr ⟨hok, rfl⟩) hc
      . have hsame : revoked Z people p card = people := if_neg hc
        rw [hsame] at hq
        obtain rfl := hp.unique hq
        exact Spec.ite (fun _ => hdone _ rfl hok) fun h => absurd hc h
  . have hkey := cardValid_keyed hok.valid
    refine Spec.ite (fun h => absurd hok.valid (by simp [h])) fun _ => ?_
    refine Spec.smoothly (credDrop_smooth hkey) fun _ _ => ?_
    refine Spec.smoothly (personGet_smooth hp) fun q hq => ?_
    rw [hq]
    refine Spec.ite (fun hc => ?_) fun hc => ?_
    . rw [revoked, if_neg hc]
      exact Spec.ret fun s hs => hs
    . rw [revoked, if_pos (not_not.mp hc)]
      exact (personStore_smooth (hok.encodes (not_not.mp hc))).conseq (fun s hs => hs)
        (fun _ s hs => hs.2) (fun e s hs => hs.elim) fun s hs => hs.elim

theorem cardRevokeFrom_redo_illegible (id : UInt32) (card : CStr)
    (hno : ∀ p, ¬ Legible Z people id p) :
    Redo db (cardRevokeFrom Z db id card) noErrno people cred people cred
      (fun people1 cred1 => people1 = people ∧ (cred1 = cred ∨ cred1 = droppedOne cred card)) False := by
  refine ⟨⟨rfl, .inl rfl⟩, fun h => h.elim, ?_, fun h => h.elim⟩
  refine Spec.within fun people1 cred1 hR => ?_
  obtain ⟨rfl, hcred⟩ := hR
  have hQ : Admits db (fun people cred' => people = people1 ∧ (cred' = cred ∨ cred' = droppedOne cred card))
      (redoPost db (fun people cred' => people = people1 ∧ (cred' = cred ∨ cred' = droppedOne cred card))
        False noErrno people1 cred) :=
    redoPost_admits fun _ h => h.elim
  refine Spec.ite (fun _ => Spec.fail fun s hs => ⟨hs.kept ⟨rfl, hcred⟩, fun h => h.elim⟩) fun hvalid => ?_
  have hkey : Keyed card := cardValid_keyed (by simpa using hvalid)
  have hdrop : people1 = people1 ∧ (droppedOne cred1 card = cred ∨
      droppedOne cred1 card = droppedOne cred card) := by
    rcases hcred with rfl | rfl
    . exact ⟨rfl, .inr rfl⟩
    . exact ⟨rfl, .inr (droppedOne_twice card)⟩
  refine Spec.put hQ (credDrop_spec ⟨rfl, hcred⟩ (hkey.2.trans cardLen_le) hdrop) fun _ => ?_
  exact Spec.seek hQ hdrop (personGet_spec id)
    (fun _ s hs => ⟨hs.kept hdrop, fun h => h.elim⟩) fun q hq => absurd hq (hno q)

/-! The calls -/

inductive RedoOp where
  | put (p : Person)
  | delete (id : UInt32)
  | assign (id : UInt32) (card : CStr)
  | revokeFrom (id : UInt32) (card : CStr)

def RedoOp.run (Z : Zcbor) (db : Db) : RedoOp → S Unit
  | .put p => personPut Z db p
  | .delete id => personDelete Z db id
  | .assign id card => cardAssign Z db id card
  | .revokeFrom id card => cardRevokeFrom Z db id card

-- The errors that tell the caller to stop repeating the call.
def RedoOp.fin : RedoOp → Errno → Prop
  | .delete _ => (· = Errno.ENOENT)
  | _ => noErrno

-- What the writes and the reads of one attempt meet.
structure Attempt where
  fates : List Fate
  faults : List (Option Fault)

-- The history is the one of the attempt.
def tryOnce (Z : Zcbor) (db : Db) (op : RedoOp) (s : MapStore) (a : Attempt) :
    Out Errno Unit × MapStore :=
  op.run Z db { enter s a.fates a.faults with history := [] }

def runTries (Z : Zcbor) (db : Db) (op : RedoOp) (s : MapStore) (as : List Attempt) : MapStore :=
  as.foldl (fun s a => (tryOnce Z db op s a).2) s

def RedoOp.Through (op : RedoOp) (o : Out Errno Unit) : Prop :=
  o = .ok () ∨ ∃ e, op.fin e ∧ o = .err e

theorem RedoOp.redo (op : RedoOp) : ∃ people' cred' R φ,
    Redo db (op.run Z db) op.fin people cred people' cred' R φ := by
  cases op with
  | put p => exact ⟨_, _, _, _, personPut_redo p⟩
  | delete id =>
    by_cases hleg : ∃ p, Legible Z people id p
    . obtain ⟨p, hp⟩ := hleg
      exact ⟨_, _, _, _, personDelete_redo id hp⟩
    . by_cases hnone : people (personKey id) = none
      . exact ⟨_, _, _, _, personDelete_redo_none id hnone⟩
      . exact ⟨_, _, _, _, personDelete_redo_illegible id (not_exists.mp hleg) hnone⟩
  | assign id card =>
    by_cases hleg : ∃ p, Legible Z people id p
    . obtain ⟨p, hp⟩ := hleg
      exact ⟨_, _, _, _, cardAssign_redo id card hp⟩
    . exact ⟨_, _, _, _, cardAssign_redo_illegible id card (not_exists.mp hleg)⟩
  | revokeFrom id card =>
    by_cases hleg : ∃ p, Legible Z people id p
    . obtain ⟨p, hp⟩ := hleg
      exact ⟨_, _, _, _, cardRevokeFrom_redo id card hp⟩
    . exact ⟨_, _, _, _, cardRevokeFrom_redo_illegible id card (not_exists.mp hleg)⟩

namespace Redo

variable {op : RedoOp} {R : KvMap → KvMap → Prop} {φ : Prop}

theorem attempt (h : Redo db (op.run Z db) op.fin people cred people' cred' R φ) {s : MapStore}
    (hs : Within db R s.items) (a : Attempt) :
    Within db R (tryOnce Z db op s a).2.items ∧ (op.Through (tryOnce Z db op s a).1 →
      φ ∧ Tables db people' cred' (tryOnce Z db op s a).2.items) := by
  have hspec := h.again { enter s a.fates a.faults with history := [] } ⟨hs, nofun⟩ trivial
  rw [tryOnce]
  generalize op.run Z db { enter s a.fates a.faults with history := [] } = r at hspec
  obtain ⟨o, t⟩ := r
  cases o with
  | ok u => exact ⟨hspec.2.now.within (h.goal hspec.1), fun _ => ⟨hspec.1, hspec.2.now⟩⟩
  | err e =>
    refine ⟨hspec.1.now, ?_⟩
    rintro (he | ⟨e', he, heq⟩)
    . cases he
    . cases heq
      exact (hspec.2 he).imp_right fun ht => ht.now
  | cut =>
    refine ⟨hspec.now, ?_⟩
    rintro (he | ⟨e', he, heq⟩)
    . cases he
    . cases heq

theorem attempts (h : Redo db (op.run Z db) op.fin people cred people' cred' R φ)
    (as : List Attempt) {s : MapStore} (hs : Within db R s.items) :
    Within db R (runTries Z db op s as).items := by
  induction as generalizing s with
  | nil => exact hs
  | cons a as ih => exact ih (h.attempt hs a).1

end Redo

-- The two roots are bound to maps.
def Mapped (db : Db) (s : MapStore) : Prop :=
  ∃ people cred, Tables db people cred s.items

theorem person_redo_converges {s : MapStore} (hs : Mapped db s) (op : RedoOp) (as : List Attempt)
    (a : Attempt) (hend : op.Through (tryOnce Z db op (runTries Z db op s as) a).1) :
    mapOf (tryOnce Z db op (runTries Z db op s as) a).2.items db.peopleRoot =
        mapOf (tryOnce Z db op s ⟨[], []⟩).2.items db.peopleRoot ∧
      mapOf (tryOnce Z db op (runTries Z db op s as) a).2.items db.credRoot =
        mapOf (tryOnce Z db op s ⟨[], []⟩).2.items db.credRoot := by
  obtain ⟨people, cred, ht⟩ := hs
  obtain ⟨people', cred', R, φ, h⟩ := @RedoOp.redo Z db people cred op
  obtain ⟨hφ, hend⟩ := (h.attempt (h.attempts as (ht.within h.start)) a).2 hend
  have honce := h.once hφ { enter s [] [] with history := [] } ⟨rfl, rfl, ht⟩ trivial
  have hcalm : Tables db people' cred' (tryOnce Z db op s ⟨[], []⟩).2.items := by
    rw [tryOnce]
    generalize op.run Z db { enter s [] [] with history := [] } = r at honce
    obtain ⟨o, t⟩ := r
    cases o <;> exact honce.2.2
  rw [hend.people.mapOf, hend.cred.mapOf, hcalm.people.mapOf, hcalm.cred.mapOf]
  exact ⟨rfl, rfl⟩

-- Two persons list one card.
def sharedStore : MapStore :=
  runPersons zcbor smallDb freshStore
    [⟨.put (someone 1 [cardA, cardB]), [], []⟩, ⟨.put (someone 2 [cardB]), [], []⟩]

def failure : Fault := ⟨Errno.EIO, nofun, nofun⟩

-- Cut after its first write, then failing although the record has changed.
def halfWay : List Attempt := [⟨[.cut true], []⟩, ⟨[.fail failure true], []⟩]

theorem person_redo_converges_shared :
    mapOf (tryOnce zcbor smallDb (.put (someone 1 [cardB]))
        (runTries zcbor smallDb (.put (someone 1 [cardB])) sharedStore halfWay) ⟨[], []⟩).2.items 1 =
      mapOf (tryOnce zcbor smallDb (.put (someone 1 [cardB])) sharedStore ⟨[], []⟩).2.items 1 ∧
    mapOf (tryOnce zcbor smallDb (.put (someone 1 [cardB]))
        (runTries zcbor smallDb (.put (someone 1 [cardB])) sharedStore halfWay) ⟨[], []⟩).2.items 2 =
      mapOf (tryOnce zcbor smallDb (.put (someone 1 [cardB])) sharedStore ⟨[], []⟩).2.items 2 := by
  have hkept : Kept smallDb (Sound zcbor) sharedStore := runPersons_kept _ freshStore_fresh.kept
  have hmapped : Mapped smallDb sharedStore := by
    obtain ⟨people, cred, ht, -⟩ := hkept.now
    exact ⟨people, cred, ht⟩
  exact person_redo_converges hmapped (.put (someone 1 [cardB])) halfWay ⟨[], []⟩
    (.inl (by decide +kernel))

end KeyValueDb.Persondb
