import KeyValueDb.Persondb.Superblock

/-!
What a decode makes of a superblock that was written well: one of this version comes back, one with
more than this build has room for is refused as such.
-/

namespace KeyValueDb.Persondb

open Cbor Containers

theorem sb_bind {α β : Type} {x : SbScan α} {f : α → SbScan β} {ts ts' : List Tok} {a : α}
    (h : x ts = .ok (a, ts')) : (x >>= f) ts = f a ts' := by
  show (x ts >>= fun p => f p.1 p.2) = f a ts'
  rw [h]
  rfl

theorem sb_bind_error {α β : Type} {x : SbScan α} {f : α → SbScan β} {ts : List Tok} {e : Errno}
    (h : x ts = .error e) : (x >>= f) ts = .error e := by
  show (x ts >>= fun p => f p.1 p.2) = .error e
  rw [h]
  rfl

theorem scanned_some {α : Type} {x : Scan α} {ts : List Tok} {r : α × List Tok}
    (h : x ts = some r) : scanned x ts = .ok r := by
  rw [scanned, h]

theorem scanned_none {α : Type} {x : Scan α} {ts : List Tok} (h : x ts = none) :
    scanned x ts = .error Errno.EILSEQ := by
  rw [scanned, h]

theorem uint64_cons (n : UInt64) (ts : List Tok) : uint64 (.uint n :: ts) = some (n, ts) := rfl

-- The version key of version 1.
theorem uint32_one (ts : List Tok) : uint32 (.uint 1 :: ts) = some (1, ts) := uint32_cons 1 ts

theorem atEnd_uint (n : UInt64) (ts : List Tok) :
    atEnd (.uint n :: ts) = some (false, .uint n :: ts) := rfl

theorem sbTable_toks (t : SbTable) (ts : List Tok) : sbTable (tableToks t ++ ts) = some (t, ts) := by
  simp only [tableToks, List.cons_append, List.nil_append]
  rw [sbTable, scan_bind (uint32_cons _ _), scan_bind (token_cons _ _),
    scan_bind (expect_cons _ _), scan_bind (uint64_cons _ _),
    scan_bind (expect_cons _ _), scan_bind (uint32_cons _ _),
    scan_bind (expect_cons _ _), scan_bind (uint32_cons _ _), scan_bind (token_cons _ _)]
  rfl

theorem figures_toks (k k' k'' : UInt64) (h' : k + 1 = k') (h'' : k + 2 = k'')
    (n populated rev : UInt32) (ts : List Tok) :
    figures k (.uint k :: .uint n.toUInt64 :: .uint k' :: .uint populated.toUInt64 ::
      .uint k'' :: .uint rev.toUInt64 :: .stop :: ts) = some ((n, populated, rev), ts) := by
  subst h' h''
  rw [figures, scan_bind (expect_cons _ _), scan_bind (uint32_cons _ _),
    scan_bind (expect_cons _ _), scan_bind (uint32_cons _ _),
    scan_bind (expect_cons _ _), scan_bind (uint32_cons _ _), scan_bind (token_cons _ _)]
  rfl

theorem Ascending.tail {t : SbTable} {ts : List SbTable} (h : Ascending (t :: ts)) :
    Ascending ts := by
  cases ts with
  | nil => trivial
  | cons u ts => exact h.2

theorem Ascending.above {t : SbTable} {ts : List SbTable} (h : Ascending (t :: ts)) :
    ∀ u ∈ ts.head?, t.id < u.id := by
  cases ts with
  | nil => exact nofun
  | cons u ts =>
    rintro _ ⟨⟩
    exact h.1

-- Tables that ascend from the last one are read, as many as there is room for.
theorem sbTables_toks {tables : List SbTable} (room : Nat) (last : Option UInt32)
    (hasc : Ascending tables) (hlast : ∀ i ∈ last, ∀ t ∈ tables.head?, i < t.id) (ts : List Tok) :
    sbTables room last (tables.flatMap tableToks ++ .stop :: ts) =
      if tables.length ≤ room then .ok (tables, .stop :: ts) else .error Errno.ENOTSUP := by
  induction tables generalizing room last with
  | nil =>
    cases room with
    | zero => rfl
    | succ room => rfl
  | cons t tables ih =>
    have hnot : ¬ (last.any fun i => decide (t.id ≤ i)) = true := by
      cases last with
      | none => exact Bool.false_ne_true
      | some i =>
        have hi : i < t.id := hlast i rfl t rfl
        simpa using hi
    have hend : scanned atEnd ((t :: tables).flatMap tableToks ++ .stop :: ts) =
      .ok (false, (t :: tables).flatMap tableToks ++ .stop :: ts) := rfl
    have htable : scanned sbTable ((t :: tables).flatMap tableToks ++ .stop :: ts) =
        .ok (t, tables.flatMap tableToks ++ .stop :: ts) := by
      rw [List.flatMap_cons, List.append_assoc]
      exact scanned_some (sbTable_toks _ _)
    cases room with
    | zero =>
      rw [sbTables, sb_bind hend, if_neg Bool.false_ne_true, sb_bind htable, if_neg hnot]
      rfl
    | succ room =>
      have hrest := ih room (some t.id) hasc.tail (by
        rintro _ ⟨⟩
        exact hasc.above)
      rw [sbTables, sb_bind hend, if_neg Bool.false_ne_true, sb_bind htable, if_neg hnot]
      rw [List.length_cons]
      by_cases hfits : tables.length ≤ room
      . rw [if_pos hfits] at hrest
        rw [sb_bind hrest, if_pos (Nat.succ_le_succ hfits)]
        rfl
      . rw [if_neg hfits] at hrest
        rw [sb_bind_error hrest, if_neg (fun h => hfits (Nat.le_of_succ_le_succ h))]

theorem roots_toks (us : List UInt64) (room : Nat) (ts : List Tok) :
    roots room (us.map .uint ++ .stop :: ts) =
      if us.length ≤ room then some (us, .stop :: ts) else none := by
  induction us generalizing room with
  | nil =>
    cases room with
    | zero => rfl
    | succ room => rfl
  | cons u us ih =>
    rw [List.map_cons, List.cons_append, List.length_cons]
    cases room with
    | zero =>
      rw [roots, scan_bind (atEnd_uint _ _), if_neg (Nat.not_succ_le_zero _)]
      rfl
    | succ room =>
      rw [roots, scan_bind (atEnd_uint _ _), if_neg Bool.false_ne_true, scan_bind (uint64_cons _ _)]
      have hrest := ih room
      by_cases hfits : us.length ≤ room
      . rw [if_pos hfits] at hrest
        rw [scan_bind hrest, if_pos (Nat.succ_le_succ hfits)]
        rfl
      . rw [if_neg hfits] at hrest
        rw [if_neg (fun h => hfits (Nat.le_of_succ_le_succ h))]
        show (roots room (us.map .uint ++ .stop :: ts)).bind _ = none
        rw [hrest]
        rfl

/-! Both versions as they are written -/

-- A superblock of version 1: an array of roots for the people, and one for the credentials.
structure SuperblockV1 where
  people : List UInt64
  cred : UInt64
  nPersons : UInt32
  populated : UInt32
  rev : UInt32
  deriving Repr, DecidableEq

inductive AnySuperblock where
  | v1 (sb : SuperblockV1)
  | v2 (sb : Superblock)
  deriving Repr, DecidableEq

namespace AnySuperblock

def toks : AnySuperblock → List Tok
  | .v1 sb => [.mapStart, .uint 1, .uint 1, .uint 2, .listStart] ++ sb.people.map .uint ++
      [.stop, .uint 3, .uint sb.cred, .uint 4, .uint sb.nPersons.toUInt64,
        .uint 5, .uint sb.populated.toUInt64, .uint 6, .uint sb.rev.toUInt64, .stop]
  | .v2 sb => superblockToks sb

def WellFormed : AnySuperblock → Prop
  | .v1 sb => sb.people ≠ []
  | .v2 sb => Ascending sb.tables

-- What a decode is to make of it: a store that this build has no room for is not supported.
def answer : AnySuperblock → Except Errno Superblock
  | .v1 ⟨[people], cred, nPersons, populated, rev⟩ =>
    .ok ⟨1, [⟨sbTablePeople, people, sbClassRequired, sbSchemaPeople⟩,
      ⟨sbTableCred, cred, sbClassRequired, sbSchemaCred⟩], nPersons, populated, rev⟩
  | .v1 _ => .error Errno.ENOTSUP
  | .v2 sb =>
    if sb.tables.length ≤ sbTablesMax then .ok { sb with version := superblockVersion }
    else .error Errno.ENOTSUP

-- The array of the version 1 reader has room for the roots.
def Roomy : AnySuperblock → Prop
  | .v1 sb => sb.people.length ≤ 2
  | .v2 _ => True

end AnySuperblock

theorem superblockScan_v1 (sb : SuperblockV1) :
    superblockScan (AnySuperblock.v1 sb).toks =
      superblockV1Decode (.uint 2 :: .listStart :: (sb.people.map .uint ++
        [.stop, .uint 3, .uint sb.cred, .uint 4, .uint sb.nPersons.toUInt64,
          .uint 5, .uint sb.populated.toUInt64, .uint 6, .uint sb.rev.toUInt64, .stop])) := by
  simp only [AnySuperblock.toks, List.cons_append, List.nil_append]
  rw [superblockScan, sb_bind (scanned_some (token_cons _ _)),
    sb_bind (scanned_some (expect_cons _ _)), sb_bind (scanned_some (uint32_one _)), if_pos rfl]

theorem superblockScan_v2 (sb : Superblock) :
    superblockScan (superblockToks sb) =
      superblockV2Decode (.uint 2 :: .mapStart :: (sb.tables.flatMap tableToks ++
        [.stop, .uint 3, .uint sb.nPersons.toUInt64, .uint 4, .uint sb.populated.toUInt64,
          .uint 5, .uint sb.rev.toUInt64, .stop])) := by
  simp only [superblockToks, List.cons_append, List.nil_append]
  rw [superblockScan, sb_bind (scanned_some (token_cons _ _)),
    sb_bind (scanned_some (expect_cons _ _)),
    sb_bind (scanned_some (uint32_cons superblockVersion _)), if_neg (by decide), if_pos rfl]

theorem superblockV2Decode_toks {sb : Superblock} (hasc : Ascending sb.tables) :
    superblockScan (superblockToks sb) =
      if sb.tables.length ≤ sbTablesMax then .ok ({ sb with version := superblockVersion }, [])
      else .error Errno.ENOTSUP := by
  have htables := sbTables_toks sbTablesMax none hasc nofun
    [.uint 3, .uint sb.nPersons.toUInt64, .uint 4, .uint sb.populated.toUInt64,
      .uint 5, .uint sb.rev.toUInt64, .stop]
  rw [superblockScan_v2, superblockV2Decode, sb_bind (scanned_some (expect_cons _ _)),
    sb_bind (scanned_some (token_cons _ _))]
  by_cases hfits : sb.tables.length ≤ sbTablesMax
  . rw [if_pos hfits] at htables ⊢
    have hfig := figures_toks 3 4 5 (by decide) (by decide)
      sb.nPersons sb.populated sb.rev []
    rw [sb_bind htables, sb_bind (scanned_some (token_cons _ _)), sb_bind (scanned_some hfig)]
    rfl
  . rw [if_neg hfits] at htables ⊢
    rw [sb_bind_error htables]

theorem superblockV1Decode_one (people cred : UInt64) (nPersons populated rev : UInt32) :
    superblockScan (AnySuperblock.v1 ⟨[people], cred, nPersons, populated, rev⟩).toks =
      .ok (⟨1, [⟨sbTablePeople, people, sbClassRequired, sbSchemaPeople⟩,
        ⟨sbTableCred, cred, sbClassRequired, sbSchemaCred⟩], nPersons, populated, rev⟩, []) := by
  have hroots := roots_toks [people] 2 [.uint 3, .uint cred, .uint 4, .uint nPersons.toUInt64,
    .uint 5, .uint populated.toUInt64, .uint 6, .uint rev.toUInt64, .stop]
  rw [superblockScan_v1, superblockV1Decode, sb_bind (scanned_some (expect_cons _ _)),
    sb_bind (scanned_some (token_cons _ _)), sb_bind (scanned_some hroots),
    sb_bind (scanned_some (token_cons _ _))]
  dsimp only
  have hfig := figures_toks 4 5 6 (by decide) (by decide)
    nPersons populated rev []
  rw [sb_bind (scanned_some (expect_cons _ _)), sb_bind (scanned_some (uint64_cons _ _)),
    sb_bind (scanned_some hfig)]
  rfl

-- Two roots still fit the array; a third one is read as damage.
theorem superblockV1Decode_many {sb : SuperblockV1} (h : 2 ≤ sb.people.length) :
    superblockScan (AnySuperblock.v1 sb).toks =
      .error (if sb.people.length ≤ 2 then Errno.ENOTSUP else Errno.EILSEQ) := by
  have hroots := roots_toks sb.people 2 [.uint 3, .uint sb.cred, .uint 4,
    .uint sb.nPersons.toUInt64, .uint 5, .uint sb.populated.toUInt64, .uint 6,
    .uint sb.rev.toUInt64, .stop]
  rw [superblockScan_v1, superblockV1Decode, sb_bind (scanned_some (expect_cons _ _)),
    sb_bind (scanned_some (token_cons _ _))]
  by_cases hfits : sb.people.length ≤ 2
  . rw [if_pos hfits] at hroots ⊢
    rw [sb_bind (scanned_some hroots), sb_bind (scanned_some (token_cons _ _))]
    match hp : sb.people, h with
    | _ :: _ :: _, _ => rfl
  . rw [if_neg hfits] at hroots ⊢
    rw [sb_bind_error (scanned_none hroots)]

/-- Bytes that read as a well-formed superblock are decoded as its version and its size call for,
unless it is of version 1 and has more than two people roots. -/
theorem superblock_gate (Z : Zcbor) (x : AnySuperblock) (bytes : List UInt8)
    (hread : Z.scan bytes = x.toks) (hwf : x.WellFormed) :
    superblockCborDecode Z bytes = x.answer ↔ x.Roomy := by
  rw [superblockCborDecode, hread]
  cases x with
  | v1 sb =>
    obtain ⟨people, cred, nPersons, populated, rev⟩ := sb
    match people, hwf with
    | [root], _ =>
      rw [superblockV1Decode_one]
      exact iff_of_true rfl (by simp [AnySuperblock.Roomy])
    | r :: s :: rs, _ =>
      rw [superblockV1Decode_many (Nat.le_add_left _ _)]
      by_cases hfits : (r :: s :: rs).length ≤ 2
      . rw [if_pos hfits]
        exact iff_of_true rfl hfits
      . rw [if_neg hfits]
        exact iff_of_false nofun hfits
  | v2 sb =>
    rw [show (AnySuperblock.v2 sb).toks = superblockToks sb from rfl, superblockV2Decode_toks hwf,
      AnySuperblock.answer]
    refine iff_of_true ?_ trivial
    by_cases hfits : sb.tables.length ≤ sbTablesMax
    . rw [if_pos hfits, if_pos hfits]
    . rw [if_neg hfits, if_neg hfits]

-- A store of three people maps.
def threeMaps : AnySuperblock := .v1 ⟨[10, 11, 12], 13, 4, 1, 7⟩

theorem threeMaps_scan : zcbor.scan (zcbor.put threeMaps.toks) = threeMaps.toks := by
  decide +kernel

-- Version 1 with one root, and a full directory with one table more.
theorem superblock_gate_three : superblockCborDecode zcbor (zcbor.put threeMaps.toks) =
    threeMaps.answer ↔ threeMaps.Roomy :=
  superblock_gate zcbor threeMaps _ threeMaps_scan (List.cons_ne_nil _ _)

theorem three_maps_read_as_damage :
    ¬ ∀ (Z : Zcbor) (x : AnySuperblock) (bytes : List UInt8), Z.scan bytes = x.toks →
      x.WellFormed → superblockCborDecode Z bytes = x.answer := by
  intro h
  have hanswer := h zcbor threeMaps (zcbor.put threeMaps.toks) threeMaps_scan (List.cons_ne_nil _ _)
  have hdamage : superblockCborDecode zcbor (zcbor.put threeMaps.toks) = .error Errno.EILSEQ := by
    decide +kernel
  rw [hdamage] at hanswer
  exact absurd hanswer (by decide)

end KeyValueDb.Persondb
