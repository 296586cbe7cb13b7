import KeyValueDb.Registry.RootregUnfailing
import KeyValueDb.Persondb.SuperblockCbor
import KeyValueDb.Persondb.Lifecycle

/-!
The directory of a store: its tables ascend, the people table is the first one of this build, and the
maps of the tables can be taken apart one after the other, whatever power cuts come between.
-/

namespace KeyValueDb.Persondb

open Containers Kvdb Rootreg Cbor

/-! The order of a directory -/

theorem sb_bind_ok {α β : Type} {x : SbScan α} {f : α → SbScan β} {ts : List Tok} {r : β × List Tok}
    (h : (x >>= f) ts = .ok r) : ∃ a ts', x ts = .ok (a, ts') ∧ f a ts' = .ok r := by
  have h' : (x ts >>= fun p => f p.1 p.2) = .ok r := h
  cases hx : x ts with
  | error e =>
    rw [hx] at h'
    cases h'
  | ok p =>
    rw [hx] at h'
    exact ⟨p.1, p.2, rfl, h'⟩

def Sorted (ts : List SbTable) : Prop := ts.Pairwise fun t u => t.id < u.id

-- Whatever is read as a directory ascends.
theorem sbTables_sorted {room : Nat} {last : Option UInt32} {ts ts' : List Tok} {tables : List SbTable}
    (h : sbTables room last ts = .ok (tables, ts')) :
    Sorted tables ∧ ∀ i ∈ last, ∀ t ∈ tables, i < t.id := by
  have hnone : Sorted [] ∧ ∀ i ∈ last, ∀ t ∈ ([] : List SbTable), i < t.id :=
    ⟨List.Pairwise.nil, fun _ _ _ ht => absurd ht List.not_mem_nil⟩
  induction room generalizing last ts tables with
  | zero =>
    obtain ⟨fin, ts₁, -, h⟩ := sb_bind_ok h
    cases fin with
    | true =>
      cases h
      exact hnone
    | false =>
      obtain ⟨t, ts₂, -, h⟩ := sb_bind_ok h
      split at h <;> cases h
  | succ room ih =>
    obtain ⟨fin, ts₁, -, h⟩ := sb_bind_ok h
    cases fin with
    | true =>
      cases h
      exact hnone
    | false =>
      obtain ⟨t, ts₂, -, h⟩ := sb_bind_ok h
      split at h
      . cases h
      . next hlast =>
        obtain ⟨rest, ts₃, hrest, h⟩ := sb_bind_ok h
        cases h
        obtain ⟨hsorted, habove⟩ := ih hrest
          ⟨List.Pairwise.nil, fun _ _ _ ht => absurd ht List.not_mem_nil⟩
        have hfirst : ∀ i ∈ last, i < t.id := by
          rintro i hi
          have hi : last = some i := hi
          simpa [hi] using hlast
        have hlater : ∀ u ∈ rest, t.id < u.id := habove t.id rfl
        refine ⟨List.pairwise_cons.mpr ⟨hlater, hsorted⟩, fun i hi u hu => ?_⟩
        rcases List.mem_cons.mp hu with rfl | hu
        . exact hfirst i hi
        . exact UInt32.lt_trans (hfirst i hi) (hlater u hu)

theorem sbTables_length {room : Nat} {last : Option UInt32} {ts ts' : List Tok} {tables : List SbTable}
    (h : sbTables room last ts = .ok (tables, ts')) : tables.length ≤ room := by
  induction room generalizing last ts tables with
  | zero =>
    obtain ⟨fin, ts₁, -, h⟩ := sb_bind_ok h
    cases fin with
    | true =>
      cases h
      exact le_rfl
    | false =>
      obtain ⟨t, ts₂, -, h⟩ := sb_bind_ok h
      split at h <;> cases h
  | succ room ih =>
    obtain ⟨fin, ts₁, -, h⟩ := sb_bind_ok h
    cases fin with
    | true =>
      cases h
      exact Nat.zero_le _
    | false =>
      obtain ⟨t, ts₂, -, h⟩ := sb_bind_ok h
      split at h
      . cases h
      . obtain ⟨rest, ts₃, hrest, h⟩ := sb_bind_ok h
        cases h
        exact Nat.succ_le_succ (ih hrest)

theorem superblockV1Decode_dir {ts : List Tok} {r : Superblock × List Tok}
    (h : superblockV1Decode ts = .ok r) : Sorted r.1.tables ∧ r.1.tables.length ≤ sbTablesMax := by
  rw [superblockV1Decode] at h
  obtain ⟨_, ts₁, -, h⟩ := sb_bind_ok h
  obtain ⟨_, ts₂, -, h⟩ := sb_bind_ok h
  obtain ⟨rs, ts₃, -, h⟩ := sb_bind_ok h
  obtain ⟨_, ts₄, -, h⟩ := sb_bind_ok h
  cases rs with
  | nil => cases h
  | cons people rs =>
    cases rs with
    | cons _ _ => cases h
    | nil =>
      obtain ⟨_, ts₅, -, h⟩ := sb_bind_ok h
      obtain ⟨cred, ts₆, -, h⟩ := sb_bind_ok h
      obtain ⟨fig, ts₇, -, h⟩ := sb_bind_ok h
      cases h
      refine ⟨List.pairwise_cons.mpr ⟨fun u hu => ?_, List.pairwise_singleton _ _⟩,
        (by decide : 2 ≤ sbTablesMax)⟩
      obtain rfl := List.mem_singleton.mp hu
      exact (by decide : sbTablePeople < sbTableCred)

theorem superblockV2Decode_dir {ts : List Tok} {r : Superblock × List Tok}
    (h : superblockV2Decode ts = .ok r) : Sorted r.1.tables ∧ r.1.tables.length ≤ sbTablesMax := by
  rw [superblockV2Decode] at h
  obtain ⟨_, ts₁, -, h⟩ := sb_bind_ok h
  obtain ⟨_, ts₂, -, h⟩ := sb_bind_ok h
  obtain ⟨tables, ts₃, htables, h⟩ := sb_bind_ok h
  obtain ⟨_, ts₄, -, h⟩ := sb_bind_ok h
  obtain ⟨fig, ts₅, -, h⟩ := sb_bind_ok h
  cases h
  exact ⟨(sbTables_sorted htables).1, sbTables_length htables⟩

theorem superblockCborDecode_dir {Z : Zcbor} {bytes : List UInt8} {sb : Superblock}
    (h : superblockCborDecode Z bytes = .ok sb) :
    Sorted sb.tables ∧ sb.tables.length ≤ sbTablesMax := by
  rw [superblockCborDecode] at h
  cases hs : superblockScan (Z.scan bytes) with
  | error e =>
    rw [hs] at h
    cases h
  | ok r =>
    rw [hs] at h
    cases h
    obtain ⟨_, ts₁, -, hs⟩ := sb_bind_ok hs
    obtain ⟨_, ts₂, -, hs⟩ := sb_bind_ok hs
    obtain ⟨version, ts₃, -, hs⟩ := sb_bind_ok hs
    by_cases h1 : version = 1
    . rw [if_pos h1] at hs
      exact superblockV1Decode_dir hs
    . by_cases h2 : version = superblockVersion
      . rw [if_neg h1, if_pos h2] at hs
        exact superblockV2Decode_dir hs
      . rw [if_neg h1, if_neg h2] at hs
        cases hs

theorem resolveRoots_no_people {ts : List SbTable} {people cred people' cred' : Nat}
    (hno : ∀ t ∈ ts, t.id ≠ sbTablePeople)
    (h : resolveRoots ts (people, cred) = .ok (people', cred')) : people' = people := by
  induction ts generalizing cred with
  | nil =>
    cases h
    rfl
  | cons t ts ih =>
    have hrest : ∀ u ∈ ts, u.id ≠ sbTablePeople := fun u hu => hno u (List.mem_cons_of_mem _ hu)
    rw [resolveRoots, if_neg (hno t List.mem_cons_self)] at h
    split at h
    . split at h
      . cases h
      . exact ih hrest h
    . split at h
      . exact ih hrest h
      . cases h

-- The people table is the first one of this build.
theorem resolveRoots_people {ts : List SbTable} {cred people' cred' : Nat} (hs : Sorted ts)
    (h : resolveRoots ts (0, cred) = .ok (people', cred')) (hpos : people' ≠ 0) :
    ∃ t, (ts.filter ownTable).head? = some t ∧ people' = t.root.toNat := by
  induction ts generalizing cred with
  | nil =>
    cases h
    exact absurd rfl hpos
  | cons t ts ih =>
    obtain ⟨hlater, hsorted⟩ := List.pairwise_cons.mp hs
    have hnone : sbTablePeople ≤ t.id → ∀ u ∈ ts, u.id ≠ sbTablePeople := by
      rintro hle u hu he
      have hlt := hlater u hu
      rw [he] at hlt
      exact UInt32.lt_irrefl _ (UInt32.lt_of_le_of_lt hle hlt)
    rw [resolveRoots] at h
    split at h
    . next hid =>
      split at h
      . cases h
      . have hown : ownTable t = true := by simp [ownTable, hid]
        rw [List.filter_cons_of_pos hown, resolveRoots_no_people (hnone (by rw [hid]; exact UInt32.le_refl _)) h]
        exact ⟨t, rfl, rfl⟩
    . next hid =>
      split at h
      . next hcred =>
        split at h
        . cases h
        . have hle : sbTablePeople ≤ t.id := by
            rw [hcred]
            decide
          exact absurd (resolveRoots_no_people (hnone hle) h) hpos
      . next hcred =>
        split at h
        . have hown : ¬ ownTable t = true := by simp [ownTable, hid, hcred]
          rw [List.filter_cons_of_neg hown]
          exact ih hsorted h
        . cases h

theorem tablesResolve_people {sbId : UInt64} {ts : List SbTable} {db : Db} (hs : Sorted ts)
    (h : tablesResolve sbId ts = .ok db) :
    ∃ t, (ts.filter ownTable).head? = some t ∧ db.peopleRoot = t.root.toNat := by
  rw [tablesResolve] at h
  split at h
  . cases h
  . next people cred hr =>
    split at h
    . cases h
    . next hroots =>
      split at h
      . cases h
      . cases h
        exact resolveRoots_people hs hr fun h0 => hroots (.inl h0)

/-! Tables that go -/

variable {cfg : KvdbCfg} {own : UInt64 → Nat → Prop} {b0 b b' : Blobs} {cap top : Nat}
  {H : Hypothesis (World KvRam)} {t : SbTable} {all ts us : List SbTable} {D : SbTable → Prop}

-- `own` has the blobs of the map at each root.
def Owned (ts : List SbTable) (own : UInt64 → Nat → Prop) (id : Nat) : Prop := ∃ t ∈ ts, own t.root id

-- Two tables are one map, or have no blob in common.
def Apart (ts : List SbTable) (own : UInt64 → Nat → Prop) : Prop :=
  ∀ t ∈ ts, ∀ u ∈ ts, t.root = u.root ∨ ∀ id, own t.root id → ¬ own u.root id

-- Of each map there is all, or what a destroy left.
structure Going (cfg : KvdbCfg) (ts : List SbTable) (own : UInt64 → Nat → Prop) (b0 : Blobs) (top : Nat)
    (b : Blobs) : Prop where
  maps : ∀ t ∈ ts, MapLeft cfg.toKvCfg t.root.toNat (own t.root) b top
  frame : ∀ id, ¬ Owned ts own id → b id = b0 id

-- The maps of these tables are dying or gone.
def Dying (cfg : KvdbCfg) (us : List SbTable) (own : UInt64 → Nat → Prop) (top : Nat) (b : Blobs) : Prop :=
  ∀ t ∈ us, MapGoing cfg.toKvCfg t.root.toNat (own t.root) b top

-- Something is destroyed of one map.
theorem Going.touched (h : Going cfg all own b0 top b) (hapart : Apart all own) (ht : t ∈ all)
    (hmap : MapGoing cfg.toKvCfg t.root.toNat (own t.root) b' top)
    (hsame : ∀ id, ¬ own t.root id → b' id = b id) :
    Going cfg all own b0 top b' ∧ ∀ u ∈ all,
      MapGoing cfg.toKvCfg u.root.toNat (own u.root) b top →
        MapGoing cfg.toKvCfg u.root.toNat (own u.root) b' top := by
  have hother : ∀ u ∈ all, t.root = u.root ∨ ∀ id, own u.root id → b' id = b id := by
    intro u hu
    exact (hapart t ht u hu).imp_right fun hno id hid => hsame id fun htid => hno id htid hid
  refine ⟨⟨fun u hu => ?_, fun id hid => ?_⟩, fun u hu hgoing => ?_⟩
  . rcases hother u hu with he | hno
    . rw [← he]
      exact .inr hmap
    . exact (h.maps u hu).congr hno
  . rw [hsame id fun ho => hid ⟨t, ht, ho⟩]
    exact h.frame id hid
  . rcases hother u hu with he | hno
    . rw [← he]
      exact hmap
    . exact hgoing.congr hno

-- The state while the tables go: those in `D` are gone.
structure Razing (cfg : KvdbCfg) (all us : List SbTable) (own : UInt64 → Nat → Prop) (b0 : Blobs)
    (cap top : Nat) (D : SbTable → Prop) (s : World KvRam) : Prop where
  unfailing : Unfailing cfg.toStoreCfg cap top s
  going : Going cfg all own b0 top s.blobs
  dying : Dying cfg us own top s.blobs
  gone : ∀ t, D t → ∀ id, own t.root id → s.blobs id = none

-- How the destroy of one table ends.
def tablePost (cfg : KvdbCfg) (own : UInt64 → Nat → Prop) (b : Blobs) (cap top : Nat) (t : SbTable) :
    Post (World KvRam) Errno Unit where
  ok _ s := Unfailing cfg.toStoreCfg cap top s ∧ Cleared (own t.root) b s.blobs
  err _ _ := False
  cut s := Unfailing cfg.toStoreCfg cap top s ∧ (s.blobs = b ∨
    MapGoing cfg.toKvCfg t.root.toNat (own t.root) s.blobs top ∧
      ∀ id, ¬ own t.root id → s.blobs id = b id)

section

variable (hmax : cfg.maxPayload ≤ cfg.maxObject)

include hmax

theorem destroyTable_spec (h : MapLeft cfg.toKvCfg t.root.toNat (own t.root) b top) :
    Spec H (CalmAt cfg.toStoreCfg cap top b) (destroyTable cfg t.root.toNat)
      (tablePost cfg own b cap top t) := by
  refine (destroyLeft_spec hmax h).attempt.bind (fun r => ?_) (fun _ _ hf => hf.elim)
    fun s hs => ⟨hs.2, hs.1⟩
  cases r with
  | ok u => exact Spec.ret fun s hs => ⟨hs.2, hs.1⟩
  | error e =>
    refine Spec.ite (fun _ => Spec.ret ?_) fun he => ?_
    . rintro s ⟨⟨-, hb, hc⟩, hu⟩
      exact ⟨hu, hb ▸ hc⟩
    . exact fun s hs _ => absurd hs.1.1 he

-- Tables go in any order, and those that are dying stay so.
theorem destroyAll_spec (hapart : Apart all own) (hus : ∀ t ∈ us, t ∈ all) (hsub : ∀ t ∈ ts, t ∈ all)
    (D : SbTable → Prop) :
    Spec H (Razing cfg all us own b0 cap top D) (destroyAll cfg ts)
      ⟨fun _ => Razing cfg all us own b0 cap top fun t => D t ∨ t ∈ ts, fun _ _ => False,
        Razing cfg all us own b0 cap top fun _ => False⟩ := by
  induction ts generalizing D with
  | nil =>
    refine Spec.ret fun s hs => ⟨hs.unfailing, hs.going, hs.dying, ?_⟩
    rintro t (ht | ht)
    . exact hs.gone t ht
    . cases ht
  | cons t ts ih =>
    have ht := hsub t List.mem_cons_self
    have hone : Spec H (Razing cfg all us own b0 cap top D) (destroyTable cfg t.root.toNat)
        ⟨fun _ => Razing cfg all us own b0 cap top fun u => D u ∨ u = t, fun _ _ => False,
          Razing cfg all us own b0 cap top fun _ => False⟩ := by
      intro s hs hh
      have hspec := destroyTable_spec (H := H) hmax (hs.going.maps t ht) s ⟨rfl, hs.unfailing⟩ hh
      have hnext : ∀ {b' : Blobs}, MapGoing cfg.toKvCfg t.root.toNat (own t.root) b' top →
          (∀ id, ¬ own t.root id → b' id = s.blobs id) →
            Going cfg all own b0 top b' ∧ Dying cfg us own top b' := by
        intro b' hmap hsame
        obtain ⟨hgoing, hkeeps⟩ := hs.going.touched hapart ht hmap hsame
        exact ⟨hgoing, fun u hu => hkeeps u (hus u hu) (hs.dying u hu)⟩
      generalize destroyTable cfg t.root.toNat s = r at hspec
      obtain ⟨o, s'⟩ := r
      cases o with
      | ok u =>
        obtain ⟨hu, hc⟩ := hspec
        obtain ⟨hgoing, hdying⟩ := hnext ((hs.going.maps t ht).cleared hc) hc.same
        refine ⟨hu, hgoing, hdying, ?_⟩
        rintro u (hu | rfl) id hid
        . by_cases ho : own t.root id
          . exact hc.gone id ho
          . rw [hc.same id ho]
            exact hs.gone u hu id hid
        . exact hc.gone id hid
      | err e => exact hspec
      | cut =>
        obtain ⟨hu, hb | ⟨hmap, hsame⟩⟩ := hspec
        . exact ⟨hu, hb ▸ hs.going, hb ▸ hs.dying, fun _ hf => hf.elim⟩
        . obtain ⟨hgoing, hdying⟩ := hnext hmap hsame
          exact ⟨hu, hgoing, hdying, fun _ hf => hf.elim⟩
    refine hone.bind (fun _ => ?_) (fun _ _ hf => hf) fun _ h => h
    refine (ih (fun u hu => hsub u (List.mem_cons_of_mem _ hu)) _).conseq (fun _ h => h) ?_
      (fun _ _ hf => hf) fun _ h => h
    rintro _ s hs
    refine ⟨hs.unfailing, hs.going, hs.dying, fun u hu => hs.gone u ?_⟩
    rcases hu with hu | hu
    . exact .inl (.inl hu)
    . exact (List.mem_cons.mp hu).imp .inr id

end

end KeyValueDb.Persondb
