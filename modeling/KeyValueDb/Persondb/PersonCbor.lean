import Mathlib.Data.List.TakeWhile
import Mathlib.Tactic.FinCases
import KeyValueDb.Lib.Cbor
import KeyValueDb.Interfaces.Kvdb

/-!
Person records and credential index entries as CBOR. zcbor itself is a parameter: how it lays out a
stream of tokens, and how it reads one back.
-/

namespace KeyValueDb.Persondb

open Cbor Containers Kvdb

structure Zcbor where
  put : List Tok → List UInt8
  scan : List UInt8 → List Tok
  scan_put : ∀ ts, Closes [] ts → (∀ t ∈ ts, t.Short) → ts.length < 2 ^ 64 → scan (put ts) = ts

def nameMax : Nat := 31
def deptMax : Nat := 23
def titleMax : Nat := 23
def permMax : Nat := 23
def permsMax : Nat := 22
def cardLen : Nat := 14
def cardsMax : Nat := 5
def pinLen : Nat := 16

def personCborMax : Nat := 768
def credCborMax : Nat := 16

abbrev Pin := { bytes : List UInt8 // bytes.length = pinLen }

-- struct persondb_person
structure Person where
  id : UInt32
  name : CStr
  dept : CStr
  title : CStr
  validFrom : UInt32
  validUntil : UInt32
  pinHash : Pin
  perms : List CStr
  cards : List CStr
  deriving DecidableEq

-- The C string that a buffer holds.
def ofBytes (bytes : List UInt8) : CStr where
  chars := bytes.takeWhile (· ≠ 0)
  no_nul h := by simpa using List.mem_takeWhile_imp h

-- zcbor_tstr_put_term
def tstrPutTerm (s : CStr) (max : Nat) : Tok := .tstr (s.chars.take max)

def personToks (p : Person) : List Tok :=
  [.mapStart,
    .uint 1, .uint p.id.toUInt64,
    .uint 2, tstrPutTerm p.name nameMax,
    .uint 3, tstrPutTerm p.dept deptMax,
    .uint 4, tstrPutTerm p.title titleMax,
    .uint 5, .uint p.validFrom.toUInt64,
    .uint 6, .uint p.validUntil.toUInt64,
    .uint 7, .bstr p.pinHash.val,
    .uint 8, .listStart] ++ p.perms.map (tstrPutTerm · permMax) ++
  [.stop, .uint 9, .listStart] ++ p.cards.map (tstrPutTerm · cardLen) ++ [.stop, .stop]

variable (Z : Zcbor)

def encodeToks (ts : List Tok) (bufSz : Nat) : Except Errno (List UInt8) :=
  if bufSz < (Z.put ts).length then .error Errno.ENOMEM else .ok (Z.put ts)

def personCborEncode (p : Person) (bufSz : Nat) : Except Errno (List UInt8) :=
  if permsMax < p.perms.length ∨ cardsMax < p.cards.length then .error Errno.EINVAL
  else encodeToks Z (personToks p) bufSz

def credCborEncode (personId : UInt32) (bufSz : Nat) : Except Errno (List UInt8) :=
  encodeToks Z [.uint personId.toUInt64] bufSz

/-! Reading. A read that does not find what it wants ends the decode. -/

abbrev Scan := StateT (List Tok) Option

def next : Scan Tok := do
  match ← get with
  | t :: ts => do
    set ts
    pure t
  | [] => failure

def uint64 : Scan UInt64 := do
  match ← next with
  | .uint n => pure n
  | _ => failure

def uint32 : Scan UInt32 := do
  let n ← uint64
  if n.toNat < 2 ^ 32 then pure n.toUInt32 else failure

def expect (k : UInt64) : Scan Unit := do
  let n ← uint64
  if n = k then pure () else failure

def token (t : Tok) : Scan Unit := do
  let u ← next
  if u = t then pure () else failure

-- A text with copy_tstr: it has to fit with its NUL.
def text (cap : Nat) : Scan CStr := do
  match ← next with
  | .tstr s => if cap ≤ s.length then failure else pure (ofBytes s)
  | _ => failure

def pin : Scan Pin := do
  match ← next with
  | .bstr s => if h : s.length = pinLen then pure ⟨s, h⟩ else failure
  | _ => failure

def atEnd : Scan Bool := do
  let ts ← get
  pure (ts.head? == some .stop)

-- The texts up to the end of the list, at most `room` of them.
def texts (cap : Nat) : Nat → Scan (List CStr)
  | 0 => do
    if ← atEnd then pure [] else failure
  | room + 1 => do
    if ← atEnd then pure []
    else do
      let s ← text cap
      let rest ← texts cap room
      pure (s :: rest)

def personScan : Scan Person := do
  token .mapStart
  expect 1
  let id ← uint32
  expect 2
  let name ← text (nameMax + 1)
  expect 3
  let dept ← text (deptMax + 1)
  expect 4
  let title ← text (titleMax + 1)
  expect 5
  let validFrom ← uint32
  expect 6
  let validUntil ← uint32
  expect 7
  let pinHash ← pin
  expect 8
  token .listStart
  let perms ← texts (permMax + 1) permsMax
  token .stop
  expect 9
  token .listStart
  let cards ← texts (cardLen + 1) cardsMax
  token .stop
  token .stop
  pure ⟨id, name, dept, title, validFrom, validUntil, pinHash, perms, cards⟩

def decodeBy {α : Type} (x : Scan α) (bytes : List UInt8) : Except Errno α :=
  match x (Z.scan bytes) with
  | some (a, _) => .ok a
  | none => .error Errno.EILSEQ

def personCborDecode (bytes : List UInt8) : Except Errno Person := decodeBy Z personScan bytes

def credCborDecode (bytes : List UInt8) : Except Errno UInt32 := decodeBy Z uint32 bytes

/-! Round trips -/

def clip (s : CStr) (max : Nat) : CStr where
  chars := s.chars.take max
  no_nul h := s.no_nul (List.mem_of_mem_take h)

-- What of a person is stored.
def Person.clip (p : Person) : Person :=
  { p with
    name := Persondb.clip p.name nameMax
    dept := Persondb.clip p.dept deptMax
    title := Persondb.clip p.title titleMax
    perms := p.perms.map (Persondb.clip · permMax)
    cards := p.cards.map (Persondb.clip · cardLen) }

theorem ofBytes_clip (s : CStr) (max : Nat) : ofBytes (s.chars.take max) = clip s max := by
  have hall : ∀ c ∈ s.chars.take max, (decide (c ≠ 0)) = true := by
    intro c hc
    have hne : c ≠ 0 := fun h0 => s.no_nul (h0 ▸ List.mem_of_mem_take hc)
    simpa using hne
  simp only [ofBytes, clip, CStr.mk.injEq]
  exact List.takeWhile_eq_self_iff.mpr hall

theorem next_cons (t : Tok) (ts : List Tok) : next (t :: ts) = some (t, ts) := rfl

theorem uint32_cons (n : UInt32) (ts : List Tok) :
    uint32 (.uint n.toUInt64 :: ts) = some (n, ts) := by
  have hlt : n.toUInt64.toNat < 2 ^ 32 := by
    rw [UInt32.toNat_toUInt64]
    exact n.toNat_lt
  have h : uint32 (.uint n.toUInt64 :: ts) =
    (if n.toUInt64.toNat < 2 ^ 32 then pure n.toUInt64.toUInt32 else failure : Scan UInt32) ts := rfl
  rw [h, if_pos hlt, UInt32.toUInt32_toUInt64]
  rfl

theorem expect_cons (k : UInt64) (ts : List Tok) : expect k (.uint k :: ts) = some ((), ts) := by
  have h : expect k (.uint k :: ts) = (if k = k then pure () else failure : Scan Unit) ts := rfl
  rw [h, if_pos rfl]
  rfl

theorem token_cons (t : Tok) (ts : List Tok) : token t (t :: ts) = some ((), ts) := by
  have h : token t (t :: ts) = (if t = t then pure () else failure : Scan Unit) ts := rfl
  rw [h, if_pos rfl]
  rfl

theorem text_cons (s : CStr) (max : Nat) (ts : List Tok) :
    text (max + 1) (tstrPutTerm s max :: ts) = some (clip s max, ts) := by
  have h : text (max + 1) (tstrPutTerm s max :: ts) =
    (if max + 1 ≤ (s.chars.take max).length then failure
      else pure (ofBytes (s.chars.take max)) : Scan CStr) ts := rfl
  have hlen : (s.chars.take max).length ≤ max := List.length_take_le _ _
  rw [h, if_neg (by omega), ofBytes_clip]
  rfl

theorem pin_cons (p : Pin) (ts : List Tok) : pin (.bstr p.val :: ts) = some (p, ts) := by
  have h : pin (.bstr p.val :: ts) =
    (if h : p.val.length = pinLen then pure ⟨p.val, h⟩ else failure : Scan Pin) ts := rfl
  rw [h, dif_pos p.property]
  rfl

theorem texts_map (ss : List CStr) (max room : Nat) (ts : List Tok) (hroom : ss.length ≤ room) :
    texts (max + 1) room (ss.map (tstrPutTerm · max) ++ .stop :: ts) =
      some (ss.map (clip · max), .stop :: ts) := by
  induction ss generalizing room with
  | nil =>
    cases room with
    | zero => rfl
    | succ room => rfl
  | cons s ss ih =>
    obtain ⟨room, rfl⟩ : ∃ k, room = k + 1 := ⟨room - 1, by simp at hroom; omega⟩
    have h : texts (max + 1) (room + 1) (tstrPutTerm s max :: (ss.map (tstrPutTerm · max) ++
        .stop :: ts)) =
      (do
        let s ← text (max + 1)
        let rest ← texts (max + 1) room
        pure (s :: rest) : Scan (List CStr)) (tstrPutTerm s max :: (ss.map (tstrPutTerm · max) ++
        .stop :: ts)) := rfl
    rw [List.map_cons, List.cons_append, h]
    simp only [bind, StateT.bind, text_cons, Option.bind_some]
    rw [ih room (by simpa using hroom)]
    rfl

-- A read that finds what it wants hands on the rest.
theorem scan_bind {α β : Type} {x : Scan α} {f : α → Scan β} {ts ts' : List Tok} {a : α}
    (h : x ts = some (a, ts')) : (x >>= f) ts = f a ts' := by
  simp only [bind, StateT.bind, h, Option.bind_some]

theorem personScan_toks {p : Person} (hperms : p.perms.length ≤ permsMax)
    (hcards : p.cards.length ≤ cardsMax) : personScan (personToks p) = some (p.clip, []) := by
  simp only [personToks, List.cons_append, List.nil_append, List.append_assoc]
  rw [personScan, scan_bind (token_cons _ _),
    scan_bind (expect_cons _ _), scan_bind (uint32_cons _ _),
    scan_bind (expect_cons _ _), scan_bind (text_cons _ _ _),
    scan_bind (expect_cons _ _), scan_bind (text_cons _ _ _),
    scan_bind (expect_cons _ _), scan_bind (text_cons _ _ _),
    scan_bind (expect_cons _ _), scan_bind (uint32_cons _ _),
    scan_bind (expect_cons _ _), scan_bind (uint32_cons _ _),
    scan_bind (expect_cons _ _), scan_bind (pin_cons _ _),
    scan_bind (expect_cons _ _), scan_bind (token_cons _ _),
    scan_bind (texts_map _ _ _ _ hperms), scan_bind (token_cons _ _),
    scan_bind (expect_cons _ _), scan_bind (token_cons _ _),
    scan_bind (texts_map _ _ _ _ hcards), scan_bind (token_cons _ _), scan_bind (token_cons _ _)]
  rfl

theorem closes_tstrs (ss : List CStr) (max : Nat) (ls : List Level) (ts : List Tok) :
    Closes (.list :: ls) (ss.map (tstrPutTerm · max) ++ ts) = Closes (.list :: ls) ts := by
  induction ss with
  | nil => rfl
  | cons s ss ih =>
    rw [← ih]
    rfl

theorem personToks_closes (p : Person) : Closes [] (personToks p) := by
  have hperms := closes_tstrs p.perms permMax [.key]
    (.stop :: .uint 9 :: .listStart :: (p.cards.map (tstrPutTerm · cardLen) ++ [.stop, .stop]))
  have hcards := closes_tstrs p.cards cardLen [.key] [.stop, .stop]
  simp only [personToks, List.cons_append, List.nil_append, List.append_assoc]
  exact hperms ▸ hcards ▸ rfl

theorem tstrPutTerm_short (s : CStr) {max : Nat} (h : max < 2 ^ 64) : (tstrPutTerm s max).Short :=
  lt_of_le_of_lt (List.length_take_le _ _) h

theorem personToks_short (p : Person) : ∀ t ∈ personToks p, t.Short := by
  have htexts : ∀ (ss : List CStr) (max : Nat), max < 2 ^ 64 →
      ∀ t ∈ ss.map (tstrPutTerm · max), t.Short := by
    intro ss max hmax t ht
    obtain ⟨s, -, rfl⟩ := List.mem_map.mp ht
    exact tstrPutTerm_short s hmax
  have hpin : (Tok.bstr p.pinHash.val).Short := by
    rw [Tok.Short, p.pinHash.property]
    decide
  intro t ht
  simp only [personToks, List.mem_append] at ht
  rcases ht with (((ht | ht) | ht) | ht) | ht
  . fin_cases ht
    all_goals first | exact trivial | exact tstrPutTerm_short _ (by decide) | exact hpin
  . exact htexts _ _ (by decide) t ht
  . fin_cases ht <;> exact trivial
  . exact htexts _ _ (by decide) t ht
  . fin_cases ht <;> exact trivial

theorem personToks_length {p : Person} (hperms : p.perms.length ≤ permsMax)
    (hcards : p.cards.length ≤ cardsMax) : (personToks p).length < 2 ^ 64 := by
  simp only [personToks, List.length_append, List.length_map, List.length_cons, List.length_nil]
  simp only [permsMax, cardsMax] at hperms hcards
  omega

variable {Z}

theorem encodeToks_ok {ts : List Tok} {bufSz : Nat} {bytes : List UInt8}
    (h : encodeToks Z ts bufSz = .ok bytes) : bytes = Z.put ts := by
  rw [encodeToks] at h
  split at h
  . cases h
  . exact (Except.ok.inj h).symm

-- What was encoded is decoded.
theorem personCborDecode_encode {p : Person} {bufSz : Nat} {bytes : List UInt8}
    (h : personCborEncode Z p bufSz = .ok bytes) : personCborDecode Z bytes = .ok p.clip := by
  rw [personCborEncode] at h
  split at h
  . cases h
  . next hfits =>
    rw [not_or, not_lt, not_lt] at hfits
    rw [encodeToks_ok h, personCborDecode, decodeBy,
      Z.scan_put _ (personToks_closes p) (personToks_short p)
        (personToks_length hfits.1 hfits.2), personScan_toks hfits.1 hfits.2]

theorem scan_put_uint (n : UInt64) : Z.scan (Z.put [.uint n]) = [.uint n] := by
  have hcloses : Closes [] [Tok.uint n] := rfl
  have hshort : ∀ t ∈ [Tok.uint n], t.Short := by
    intro t ht
    rw [List.mem_singleton.mp ht]
    trivial
  exact Z.scan_put _ hcloses hshort (by simp)

theorem credCborDecode_encode {id : UInt32} {bufSz : Nat} {bytes : List UInt8}
    (h : credCborEncode Z id bufSz = .ok bytes) : credCborDecode Z bytes = .ok id := by
  rw [encodeToks_ok h, credCborDecode, decodeBy, scan_put_uint, uint32_cons]

/-! What a decode vouches for -/

theorem scan_bind_eq {α β : Type} {x : Scan α} {f : α → Scan β} {ts : List Tok}
    {r : β × List Tok} (h : (x >>= f) ts = some r) :
    ∃ a ts', x ts = some (a, ts') ∧ f a ts' = some r := by
  simp only [bind, StateT.bind] at h
  obtain ⟨⟨a, ts'⟩, hx, hf⟩ := Option.bind_eq_some_iff.mp h
  exact ⟨a, ts', hx, hf⟩

theorem text_lt {cap : Nat} {ts ts' : List Tok} {s : CStr} (h : text cap ts = some (s, ts')) :
    s.chars.length < cap := by
  obtain ⟨t, ts1, -, h⟩ := scan_bind_eq h
  cases t with
  | tstr bytes =>
    dsimp only at h
    split at h
    . cases h
    . next hlen =>
      cases h
      have := (List.takeWhile_sublist (fun c : UInt8 => decide (c ≠ 0)) (l := bytes)).length_le
      simp only [ofBytes]
      omega
  | _ => cases h

theorem texts_lt {cap room : Nat} {ts ts' : List Tok} {ss : List CStr}
    (h : texts cap room ts = some (ss, ts')) : ∀ s ∈ ss, s.chars.length < cap := by
  induction room generalizing ts ts' ss with
  | zero =>
    obtain ⟨e, ts1, -, h⟩ := scan_bind_eq h
    cases e with
    | true =>
      cases h
      exact nofun
    | false => cases h
  | succ room ih =>
    obtain ⟨e, ts1, -, h⟩ := scan_bind_eq h
    cases e with
    | true =>
      cases h
      exact nofun
    | false =>
      obtain ⟨s, ts2, hs, h⟩ := scan_bind_eq h
      obtain ⟨rest, ts3, hrest, h⟩ := scan_bind_eq h
      cases h
      intro u hu
      rcases List.mem_cons.mp hu with rfl | hu
      . exact text_lt hs
      . exact ih hrest u hu

theorem texts_length {cap room : Nat} {ts ts' : List Tok} {ss : List CStr}
    (h : texts cap room ts = some (ss, ts')) : ss.length ≤ room := by
  induction room generalizing ts ts' ss with
  | zero =>
    obtain ⟨e, ts1, -, h⟩ := scan_bind_eq h
    cases e with
    | true =>
      cases h
      exact le_rfl
    | false => cases h
  | succ room ih =>
    obtain ⟨e, ts1, -, h⟩ := scan_bind_eq h
    cases e with
    | true =>
      cases h
      exact Nat.zero_le _
    | false =>
      obtain ⟨s, ts2, hs, h⟩ := scan_bind_eq h
      obtain ⟨rest, ts3, hrest, h⟩ := scan_bind_eq h
      cases h
      exact Nat.succ_le_succ (ih hrest)

-- A person that a record can hold, with cards that the index can have.
structure Person.Shaped (p : Person) : Prop where
  perms : p.perms.length ≤ permsMax
  cards : p.cards.length ≤ cardsMax
  short : ∀ card ∈ p.cards, card.chars.length ≤ cardLen

theorem personCborDecode_shaped {bytes : List UInt8} {p : Person}
    (h : personCborDecode Z bytes = .ok p) : p.Shaped := by
  rw [personCborDecode, decodeBy] at h
  split at h
  . next q ts hscan =>
    cases h
    rw [personScan] at hscan
    iterate 17 obtain ⟨_, _, -, hscan⟩ := scan_bind_eq hscan
    obtain ⟨perms, _, hperms, hscan⟩ := scan_bind_eq hscan
    iterate 3 obtain ⟨_, _, -, hscan⟩ := scan_bind_eq hscan
    obtain ⟨cards, _, hcards, hscan⟩ := scan_bind_eq hscan
    iterate 2 obtain ⟨_, _, -, hscan⟩ := scan_bind_eq hscan
    cases hscan
    exact ⟨texts_length hperms, texts_length hcards,
      fun card hc => Nat.lt_succ_iff.mp (texts_lt hcards card hc)⟩
  . cases h

theorem clip_self {s : CStr} {max : Nat} (h : s.chars.length ≤ max) : clip s max = s := by
  cases s
  simp only [clip, CStr.mk.injEq]
  exact List.take_of_length_le h

theorem Person.Shaped.clip_cards {p : Person} (h : p.Shaped) : p.clip.cards = p.cards := by
  rw [Person.clip, List.map_congr_left fun card hc => clip_self (h.short card hc)]
  exact List.map_id' p.cards

-- zcbor with ZCBOR_CANONICAL, as the application configures it.
def zcbor : Zcbor where
  put := Cbor.put
  scan := Cbor.scan
  scan_put _ := Cbor.scan_put

end KeyValueDb.Persondb
