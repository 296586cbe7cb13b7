import KeyValueDb.Interfaces.KvdbRuns
import KeyValueDb.Persondb.Directory

/-!
Taking a store down, whatever power cuts come between. The superblock leads to all there is left until
nothing is left, and an open finds out from the tables that go first.
-/

namespace KeyValueDb.Persondb

open Containers Kvdb Rootreg Cbor

/-! A store and what is left of it -/

-- What a store is made of. `own` has the blobs of the map at a root.
structure Parts where
  sbId : UInt64
  bytes : List UInt8
  sb : Superblock
  own : UInt64 → Nat → Prop

def Parts.Owns (p : Parts) (id : Nat) : Prop := Owned p.sb.tables p.own id

variable {cfg : KvdbCfg} {Z : Zcbor} {p : Parts} {b0 b b' : Blobs} {cap top : Nat}
  {H : Hypothesis (World KvRam)} {t : SbTable} {ts : List SbTable}

-- The registry leads to the superblock, and this build reads it.
structure Seated (cfg : KvdbCfg) (Z : Zcbor) (p : Parts) (b : Blobs) (top : Nat) : Prop where
  entry : bindings cfg.reg b padbRootregKey = some p.sbId
  sound : Rootreg.Sound cfg.reg b
  stored : b p.sbId.toNat = some p.bytes
  bound : p.bytes ≠ []
  short : p.bytes.length ≤ superblockCborMax
  decodes : superblockCborDecode Z p.bytes = .ok p.sb
  sb_ne : p.sbId.toNat ≠ blobDbRootId
  tidy : ∀ id, top < id → b id = none

-- All tables are maps.
structure StoreLaid (cfg : KvdbCfg) (Z : Zcbor) (p : Parts) (b : Blobs) (top : Nat) : Prop
    extends Seated cfg Z p b top where
  maps : ∀ t ∈ p.sb.tables, MapWhole cfg.toKvCfg t.root.toNat (p.own t.root) b top
  apart : Apart p.sb.tables p.own
  sb_alone : ¬ p.Owns p.sbId.toNat
  reg_alone : ¬ p.Owns blobDbRootId

-- The first of the tables that an open looks at is dying or gone.
def Parts.first (p : Parts) : List SbTable := (p.sb.tables.filter ownTable).head?.toList

def Begun (cfg : KvdbCfg) (p : Parts) (top : Nat) (b : Blobs) : Prop := Dying cfg p.first p.own top b

-- Only the entry in the registry is left.
structure Forsaken (p : Parts) (b0 b : Blobs) : Prop where
  tables : ∀ id, p.Owns id → b id = none
  superblock : b p.sbId.toNat = none
  frame : ∀ id, ¬ p.Owns id → id ≠ p.sbId.toNat → b id = b0 id

structure Destroyed (cfg : KvdbCfg) (p : Parts) (b0 b : Blobs) : Prop where
  tables : ∀ id, p.Owns id → b id = none
  superblock : b p.sbId.toNat = none
  entry : bindings cfg.reg b padbRootregKey = none
  sound : Rootreg.Sound cfg.reg b
  valid : registry cfg.reg b ≠ none
  frame : ∀ id, ¬ p.Owns id → id ≠ p.sbId.toNat → id ≠ blobDbRootId → b id = b0 id
  keys : ∀ key, key ≠ padbRootregKey → bindings cfg.reg b key = bindings cfg.reg b0 key

-- What any attempts at a destroy leave.
def Remains (cfg : KvdbCfg) (p : Parts) (b0 : Blobs) (top : Nat) (b : Blobs) : Prop :=
  Going cfg p.sb.tables p.own b0 top b ∧ (b = b0 ∨ Begun cfg p top b) ∨ Forsaken p b0 b ∨ Destroyed cfg p b0 b

theorem Parts.first_mem (p : Parts) : ∀ t ∈ p.first, t ∈ p.sb.tables := by
  intro t ht
  rw [Parts.first, Option.mem_toList] at ht
  exact List.mem_of_mem_filter (List.mem_of_mem_head? ht)

theorem StoreLaid.going (h : StoreLaid cfg Z p b0 top) : Going cfg p.sb.tables p.own b0 top b0 :=
  ⟨fun t ht => .inl (h.maps t ht), fun _ _ => rfl⟩

theorem StoreLaid.owns_root (h : StoreLaid cfg Z p b0 top) (ht : t ∈ p.sb.tables) : p.own t.root t.root.toNat := by
  obtain ⟨g, tbl, hroot, hs, hown⟩ := h.maps t ht
  obtain ⟨r, ho, -⟩ := hs.owns_root
  rw [hroot] at ho
  exact (hown _).mpr ⟨r, ho⟩

theorem StoreLaid.root_pos (h : StoreLaid cfg Z p b0 top) (ht : t ∈ p.sb.tables) : 0 < t.root.toNat := by
  obtain ⟨g, tbl, hroot, hs, -⟩ := h.maps t ht
  obtain ⟨r, ho, -⟩ := hs.owns_root
  rw [hroot] at ho
  exact (hs.ids r _ ho).1

theorem bindings_same (h : b' blobDbRootId = b blobDbRootId) (key : UInt64) :
    bindings cfg.reg b' key = bindings cfg.reg b key := by
  rw [bindings, bindings, registry, registry, h]

theorem sound_same (h : b' blobDbRootId = b blobDbRootId) (hs : Rootreg.Sound cfg.reg b) :
    Rootreg.Sound cfg.reg b' := by
  intro es hes
  rw [registry, h] at hes
  exact hs es hes

theorem Going.registry (h : Going cfg p.sb.tables p.own b0 top b) (hl : StoreLaid cfg Z p b0 top) :
    b blobDbRootId = b0 blobDbRootId := h.frame _ hl.reg_alone

theorem Going.superblock (h : Going cfg p.sb.tables p.own b0 top b) (hl : StoreLaid cfg Z p b0 top) :
    b p.sbId.toNat = some p.bytes := (h.frame _ hl.sb_alone).trans hl.stored

theorem Forsaken.registry (h : Forsaken p b0 b) (hl : StoreLaid cfg Z p b0 top) :
    b blobDbRootId = b0 blobDbRootId := h.frame _ hl.reg_alone hl.sb_ne.symm

theorem padbRootregKey_ne : padbRootregKey ≠ 0 := by decide

-- A registry with an entry is one.
theorem registry_of_binding {key id : UInt64} (h : bindings cfg.reg b key = some id) :
    ∃ es, registry cfg.reg b = some es := by
  cases hreg : registry cfg.reg b with
  | none => simp [bindings, hreg] at h
  | some es => exact ⟨es, rfl⟩

/-! The tables -/

variable (hmax : cfg.maxPayload ≤ cfg.maxObject) (hl : StoreLaid cfg Z p b0 top)

section

include hmax hl

-- The tables of this build go first, and the first of them before all others.
theorem destroyOwn_spec (h : Going cfg p.sb.tables p.own b0 top b) (hbegun : b = b0 ∨ Begun cfg p top b) :
    Spec H (CalmAt cfg.toStoreCfg cap top b) (destroyAll cfg (p.sb.tables.filter ownTable))
      ⟨fun _ => Razing cfg p.sb.tables p.first p.own b0 cap top fun t => t ∈ p.sb.tables.filter ownTable,
        fun _ _ => False, fun s => Unfailing cfg.toStoreCfg cap top s ∧
          Going cfg p.sb.tables p.own b0 top s.blobs ∧ (s.blobs = b0 ∨ Begun cfg p top s.blobs)⟩ := by
  cases hown : p.sb.tables.filter ownTable with
  | nil =>
    refine Spec.ret ?_
    rintro s ⟨rfl, hu⟩
    refine ⟨hu, h, fun t ht => ?_, fun t ht => ?_⟩
    . rw [Parts.first, hown] at ht
      cases ht
    . cases ht
  | cons t rest =>
    have hmem : ∀ u ∈ t :: rest, u ∈ p.sb.tables := by
      intro u hu
      rw [← hown] at hu
      exact List.mem_of_mem_filter hu
    have ht := hmem t List.mem_cons_self
    have hbegins : ∀ {b' : Blobs}, MapGoing cfg.toKvCfg t.root.toNat (p.own t.root) b' top →
        Begun cfg p top b' := by
      rintro b' hmap u hu
      rw [Parts.first, hown] at hu
      obtain rfl := List.mem_singleton.mp hu
      exact hmap
    refine (destroyTable_spec hmax (h.maps t ht)).bind (fun _ => ?_) (fun _ _ hf => hf) ?_
    . have hrest := @destroyAll_spec cfg p.own b0 cap top H _ _ _ hmax hl.apart p.first_mem
        (fun u hu => hmem u (List.mem_cons_of_mem _ hu)) (fun u => u = t)
      refine hrest.conseq ?_ ?_ (fun _ _ hf => hf) ?_
      . rintro s ⟨hu, hc⟩
        have hmap := (h.maps t ht).cleared hc
        refine ⟨hu, (h.touched hl.apart ht hmap hc.same).1, hbegins hmap, ?_⟩
        rintro u rfl id hid
        exact hc.gone id hid
      . rintro _ s hs
        refine ⟨hs.unfailing, hs.going, hs.dying, fun u hu => hs.gone u ?_⟩
        exact List.mem_cons.mp hu
      . exact fun s hs => ⟨hs.unfailing, hs.going, .inr hs.dying⟩
    . rintro s ⟨hu, hb | ⟨hmap, hsame⟩⟩
      . exact ⟨hu, hb ▸ h, hb ▸ hbegun⟩
      . exact ⟨hu, (h.touched hl.apart ht hmap hsame).1, .inr (hbegins hmap)⟩

end

theorem rootsChecked_spec (hl : StoreLaid cfg Z p b0 top) (h : Going cfg p.sb.tables p.own b0 top b) (hsub : ∀ t ∈ ts, t ∈ p.sb.tables) :
    Spec H (CalmAt cfg.toStoreCfg cap top b) (rootsChecked cfg p.sbId ts)
      ⟨fun _ => CalmAt cfg.toStoreCfg cap top b, fun _ _ => False, fun _ => False⟩ := by
  induction ts with
  | nil => exact Spec.ret fun s hs => hs
  | cons t ts ih =>
    have ht := hsub t List.mem_cons_self
    have hrest := ih fun u hu => hsub u (List.mem_cons_of_mem _ hu)
    have hroot := hl.owns_root ht
    refine Spec.ite (fun hbad => ?_) fun _ => ?_
    . rcases hbad with h0 | h1 | hsb
      . have := hl.root_pos ht
        rw [h0] at this
        exact absurd this (by decide)
      . rw [h1] at hroot
        exact absurd ⟨t, ht, hroot⟩ hl.reg_alone
      . rw [hsb] at hroot
        exact absurd ⟨t, ht, hsb ▸ hroot⟩ hl.sb_alone
    . rcases h.maps t ht with hwhole | hgoing
      . refine (kvhashStat_whole hwhole).attempt.bind (fun r => ?_) (fun _ _ hf => hf) fun _ hf => hf
        cases r with
        | ok info => exact hrest
        | error e => exact fun s hs _ => hs.elim
      . refine (kvhashStat_going hgoing).attempt.bind (fun r => ?_) (fun _ _ hf => hf) fun _ hf => hf
        cases r with
        | ok info => exact fun s hs _ => hs.elim
        | error e => exact Spec.ite (fun _ => hrest.pre fun s hs => hs.2) fun he => fun s hs _ => absurd hs.1 he

-- How a destroy of the store ends.
def razePost (cfg : KvdbCfg) (p : Parts) (b0 : Blobs) (cap top : Nat) : Post (World KvRam) Errno Unit where
  ok _ s := Unfailing cfg.toStoreCfg cap top s ∧ Destroyed cfg p b0 s.blobs
  err _ _ := False
  cut s := Unfailing cfg.toStoreCfg cap top s ∧ Remains cfg p b0 top s.blobs

/-! The superblock and the entry -/

theorem unlessAbsent_altered {scfg : StoreCfg} {x : K Unit}
    (hx : Spec H (CalmAt scfg cap top b) x (altered scfg cap top b b')) :
    Spec H (CalmAt scfg cap top b) (unlessAbsent x) (altered scfg cap top b b') := by
  refine hx.attempt.bind (fun r => ?_) (fun _ _ hf => hf) fun _ hc => hc
  cases r with
  | ok u => exact Spec.ret fun s hs => hs
  | error e => exact fun s hs _ => hs.elim

theorem unlessAbsent_absent {scfg : StoreCfg} {x : K Unit}
    (hx : Spec H (CalmAt scfg cap top b) x (.stops fun e s => e = Errno.ENOENT ∧ CalmAt scfg cap top b s)) :
    Spec H (CalmAt scfg cap top b) (unlessAbsent x)
      ⟨fun _ => CalmAt scfg cap top b, fun _ _ => False, fun _ => False⟩ := by
  refine hx.attempt.bind (fun r => ?_) (fun _ _ hf => hf) fun _ hc => hc
  cases r with
  | ok u => exact fun s hs _ => hs.elim
  | error e => exact Spec.ite (fun _ => Spec.ret fun s hs => hs.2) fun he => fun s hs _ => absurd hs.1 he

theorem Forsaken.unlisted (h : Forsaken p b0 b) (hl : StoreLaid cfg Z p b0 top)
    (hu : Unlisted cfg.reg padbRootregKey b b') : Destroyed cfg p b0 b' where
  tables id ho := by
    rw [hu.frame id fun he => hl.reg_alone (he ▸ ho)]
    exact h.tables id ho
  superblock := by
    rw [hu.frame _ hl.sb_ne]
    exact h.superblock
  entry := hu.gone
  sound := hu.sound
  valid := hu.valid
  frame id ho hsb hreg := by
    rw [hu.frame id hreg]
    exact h.frame id ho hsb
  keys key hkey := by
    rw [hu.own key hkey]
    exact bindings_same (h.registry hl) key

-- The superblock goes.
theorem Going.forsaken (h : Going cfg p.sb.tables p.own b0 top b)
    (hgone : ∀ id, p.Owns id → b id = none) :
    Forsaken p b0 (Function.update b p.sbId.toNat none) where
  tables id ho := update_none_of_none (hgone id ho)
  superblock := Function.update_self _ _ _
  frame id ho hsb := by
    rw [Function.update_of_ne hsb]
    exact h.frame id ho

theorem Seated.root_le (hl : Seated cfg Z p b0 top) : blobDbRootId ≤ top := by
  by_contra hlt
  obtain ⟨es, hreg⟩ := registry_of_binding hl.entry
  obtain ⟨data, hdata, -⟩ := registry_data hreg
  rw [hl.tidy _ (not_le.mp hlt)] at hdata
  cases hdata

section

include hmax hl

theorem tablesDestroy_spec (h : Going cfg p.sb.tables p.own b0 top b) (hbegun : b = b0 ∨ Begun cfg p top b) :
    Spec H (CalmAt cfg.toStoreCfg cap top b) (tablesDestroy cfg p.sbId p.sb.tables)
      ⟨fun _ => Razing cfg p.sb.tables p.first p.own b0 cap top fun t => t ∈ p.sb.tables, fun _ _ => False,
        (razePost cfg p b0 cap top).cut⟩ := by
  refine (rootsChecked_spec hl h fun _ ht => ht).bind (fun _ => ?_) (fun _ _ hf => hf) fun _ hf => hf.elim
  refine (destroyOwn_spec hmax hl h hbegun).bind (fun _ => ?_) (fun _ _ hf => hf) ?_
  . refine (destroyAll_spec hmax hl.apart p.first_mem (fun t ht => List.mem_of_mem_filter ht) _).conseq (fun _ hs => hs)
      ?_ (fun _ _ hf => hf) ?_
    . rintro _ s hs
      refine ⟨hs.unfailing, hs.going, hs.dying, fun t ht => hs.gone t ?_⟩
      cases hown : ownTable t with
      | true => exact .inl (List.mem_filter.mpr ⟨ht, hown⟩)
      | false => exact .inr (List.mem_filter.mpr ⟨ht, by rw [hown]; rfl⟩)
    . exact fun s hs => ⟨hs.unfailing, .inl ⟨hs.going, .inr hs.dying⟩⟩
  . exact fun s hs => ⟨hs.1, .inl hs.2⟩

theorem forgetEntry_spec (h : Forsaken p b0 b) :
    Spec H (CalmAt cfg.toStoreCfg cap top b) (unlessAbsent (rootregUnregister cfg.reg padbRootregKey))
      (razePost cfg p b0 cap top) := by
  have hentry : bindings cfg.reg b padbRootregKey = some p.sbId :=
    (bindings_same (h.registry hl) _).trans hl.entry
  obtain ⟨b', hu, hspec⟩ := @rootregUnregister_calm _ _ cap _ _ H _ _ hmax hl.root_le
    (sound_same (h.registry hl) hl.sound) padbRootregKey_ne hentry
  have hdone := h.unlisted hl hu
  refine (unlessAbsent_altered hspec).conseq (fun _ hs => hs) ?_ (fun _ _ hf => hf) ?_
  . rintro _ s ⟨rfl, hs⟩
    exact ⟨hs, hdone⟩
  . rintro s (⟨rfl, hs⟩ | ⟨rfl, hs⟩)
    . exact ⟨hs, .inr (.inl h)⟩
    . exact ⟨hs, .inr (.inr hdone)⟩

theorem forgetStore_spec (h : Going cfg p.sb.tables p.own b0 top b) (hbegun : b = b0 ∨ Begun cfg p top b)
    (hgone : ∀ id, p.Owns id → b id = none) :
    Spec H (CalmAt cfg.toStoreCfg cap top b) (forgetStore cfg p.sbId) (razePost cfg p b0 cap top) := by
  have hsb : b p.sbId.toNat ≠ none := by
    rw [h.superblock hl]
    rintro ⟨⟩
  have hnext := h.forsaken hgone
  refine (unlessAbsent_altered (blobDbDelete_calm hsb)).bind (fun _ => ?_) (fun _ _ hf => hf) ?_
  . exact forgetEntry_spec hmax hl hnext
  . rintro s (⟨rfl, hs⟩ | ⟨hb, hs⟩)
    . exact ⟨hs, .inl ⟨h, hbegun⟩⟩
    . exact ⟨hs, .inr (.inl (hb ▸ hnext))⟩

theorem forgetStore_forsaken (h : Forsaken p b0 b) :
    Spec H (CalmAt cfg.toStoreCfg cap top b) (forgetStore cfg p.sbId) (razePost cfg p b0 cap top) :=
  (unlessAbsent_absent (blobDbDelete_calm_none h.superblock)).bind
    (fun _ => forgetEntry_spec hmax hl h) (fun _ _ hf => hf) fun _ hf => hf.elim

-- From whatever is left, a destroy that is not cut leaves nothing.
theorem persondbDestroy_spec (h : Remains cfg p b0 top b) :
    Spec H (CalmAt cfg.toStoreCfg cap top b) (persondbDestroy cfg Z) (razePost cfg p b0 cap top) := by
  rcases h with ⟨h, hbegun⟩ | h | h
  . have hentry : bindings cfg.reg b padbRootregKey = some p.sbId :=
      (bindings_same (h.registry hl) _).trans hl.entry
    obtain ⟨es, hreg⟩ := registry_of_binding hentry
    refine (rootregInit_calm hreg).bind (fun _ => ?_) (fun _ _ hf => hf) fun _ hf => hf.elim
    refine (rootregGet_calm padbRootregKey_ne hentry).attempt.bind (fun r => ?_) (fun _ _ hf => hf)
      fun _ hf => hf.elim
    cases r with
    | error e => exact fun s hs _ => hs.elim
    | ok sbId =>
      refine Spec.fact ?_
      rintro rfl
      refine (blobDbGet_calm (h.superblock hl) hl.short).attempt.bind (fun r => ?_) (fun _ _ hf => hf)
        fun _ hf => hf.elim
      cases r with
      | error e => exact fun s hs _ => hs.elim
      | ok data =>
        refine Spec.fact ?_
        rintro rfl
        have hlen : ¬ p.bytes.length = 0 := fun h0 => hl.bound (List.length_eq_zero_iff.mp h0)
        refine Spec.ite (fun h0 => absurd h0 hlen) fun _ => ?_
        rw [hl.decodes]
        refine (tablesDestroy_spec hmax hl h hbegun).bind (fun _ => ?_) (fun _ _ hf => hf) fun _ hc => hc
        intro s hs hh
        have hgone : ∀ id, p.Owns id → s.blobs id = none := fun id ⟨t, ht, ho⟩ => hs.gone t ht id ho
        exact forgetStore_spec hmax hl hs.going (.inr hs.dying) hgone s ⟨rfl, hs.unfailing⟩ hh
  . have hentry : bindings cfg.reg b padbRootregKey = some p.sbId :=
      (bindings_same (h.registry hl) _).trans hl.entry
    obtain ⟨es, hreg⟩ := registry_of_binding hentry
    refine (rootregInit_calm hreg).bind (fun _ => ?_) (fun _ _ hf => hf) fun _ hf => hf.elim
    refine (rootregGet_calm padbRootregKey_ne hentry).attempt.bind (fun r => ?_) (fun _ _ hf => hf)
      fun _ hf => hf.elim
    cases r with
    | error e => exact fun s hs _ => hs.elim
    | ok sbId =>
      refine Spec.fact ?_
      rintro rfl
      refine (blobDbGet_calm_none h.superblock).attempt.bind (fun r => ?_) (fun _ _ hf => hf)
        fun _ hf => hf.elim
      cases r with
      | ok data => exact fun s hs _ => hs.elim
      | error e =>
        exact Spec.ite (fun _ => (forgetStore_forsaken hmax hl h).pre fun s hs => hs.2)
          fun he => fun s hs _ => absurd hs.1 he
  . cases hreg : registry cfg.reg b with
    | none => exact absurd hreg h.valid
    | some es =>
      refine (rootregInit_calm hreg).bind (fun _ => ?_) (fun _ _ hf => hf) fun _ hf => hf.elim
      refine (rootregGet_calm_none padbRootregKey_ne hreg h.entry).attempt.bind (fun r => ?_)
        (fun _ _ hf => hf) fun _ hf => hf.elim
      cases r with
      | ok sbId => exact fun s hs _ => hs.elim
      | error e =>
        refine Spec.ite (fun _ => Spec.ret ?_) fun he => fun s hs _ => absurd hs.1 he
        rintro s ⟨-, rfl, hs⟩
        exact ⟨hs, h⟩

end

/-! An open meanwhile -/

theorem mapGone_going {root : Nat} {own : Nat → Prop}
    (h : MapGoing cfg.toKvCfg root own b top) :
    Spec H (CalmAt cfg.toStoreCfg cap top b) (mapGone cfg root)
      ⟨fun gone s => gone = true ∧ CalmAt cfg.toStoreCfg cap top b s, fun _ _ => False, fun _ => False⟩ := by
  refine (kvhashStat_going h).attempt.bind (fun r => ?_) (fun _ _ hf => hf) fun _ hf => hf
  cases r with
  | ok info => exact fun s hs _ => hs.elim
  | error e => exact Spec.ret fun s hs => ⟨decide_eq_true hs.1, hs.2⟩

-- What an open finds is refused while the superblock is there.
theorem persondbOpen_going (hl : StoreLaid cfg Z p b0 top) (h : Going cfg p.sb.tables p.own b0 top b)
    (hbegun : Begun cfg p top b) (nPersons : UInt32) :
    Spec H (CalmAt cfg.toStoreCfg cap top b) (persondbOpen cfg Z nPersons)
      (.stops fun _ => CalmAt cfg.toStoreCfg cap top b) := by
  have hentry : bindings cfg.reg b padbRootregKey = some p.sbId :=
    (bindings_same (h.registry hl) _).trans hl.entry
  obtain ⟨es, hreg⟩ := registry_of_binding hentry
  refine (rootregInit_calm hreg).bind (fun _ => ?_) (fun _ _ hf => hf.elim) fun _ hf => hf
  refine (rootregGet_calm padbRootregKey_ne hentry).attempt.bind (fun r => ?_) (fun _ _ hf => hf.elim)
    fun _ hf => hf
  cases r with
  | error e => exact fun s hs _ => hs.elim
  | ok sbId =>
    refine Spec.fact ?_
    rintro rfl
    refine (blobDbGet_calm (h.superblock hl) hl.short).attempt.bind (fun r => ?_) (fun _ _ hf => hf.elim)
      fun _ hf => hf
    cases r with
    | error e => exact fun s hs _ => hs.elim
    | ok data =>
      refine Spec.fact ?_
      rintro rfl
      refine Spec.ite (fun h0 => absurd (List.length_eq_zero_iff.mp h0) hl.bound) fun _ => ?_
      rw [attachStore, hl.decodes]
      refine Spec.ofExcept_bind (fun e _ s hs => hs) fun db hdb => ?_
      obtain ⟨t, hhead, hroot⟩ := tablesResolve_people (superblockCborDecode_dir hl.decodes).1 hdb
      rw [hroot]
      refine (mapGone_going (hbegun t (Option.mem_toList.mpr hhead))).bind (fun gone => Spec.fact ?_) (fun _ _ hf => hf.elim)
        fun _ hf => hf
      rintro rfl
      exact Spec.ite (fun _ => Spec.fail fun s hs => hs) fun hne => absurd rfl hne

-- Ids are only handed out.
theorem rising_calls (cfg : StoreCfg) (top : Nat) :
    Calls cfg (fun s : World KvRam => top ≤ s.top) where
  done _ h := h
  failed _ _ _ _ h := h
  ram _ _ h := h
  update id payload := by
    intro w h
    rcases blobDbUpdate_met cfg w id payload with ⟨-, hr⟩ | ⟨-, ⟨-, hr⟩ | ⟨-, hr⟩⟩
    all_goals
      rw [hr]
      exact h
  delete id := by
    intro w h
    rcases blobDbDelete_met w id with ⟨-, hr⟩ | ⟨-, hr⟩
    all_goals
      rw [hr]
      exact h
  alloc := by
    intro w (h : top ≤ w.top)
    simp only [blobDbAllocId]
    split
    . exact h
    . next gap _ =>
      split
      . show top ≤ w.top + 1 + gap
        omega
      . exact h

theorem rising_spec {α : Type} {scfg : StoreCfg} {x : K α} (hx : Client scfg x) (top : Nat) :
    Spec H (fun s => top ≤ s.top) x
      (.exits (fun s => top ≤ s.top) (fun s => top ≤ s.top) fun s => top ≤ s.top) :=
  (hx _ (rising_calls scfg top)).spec H

theorem newMap_fresh (mc : MapConfig) :
    Spec H (fun s => top ≤ s.top) (newMap cfg mc)
      ⟨fun root s => top < root ∧ top ≤ s.top, fun _ _ => True, fun _ => True⟩ := by
  have halloc : Spec H (fun s : World KvRam => top ≤ s.top) blobDbAllocId
      ⟨fun id s => (id = 0 ∨ top < id) ∧ top ≤ s.top, fun _ _ => False, fun _ => False⟩ := by
    refine Spec.blobDbAllocId ?_ ?_
    . intro s gap (h : top ≤ s.top) _
      have hle : top < s.top + 1 + gap := by omega
      exact ⟨.inr hle, hle.le⟩
    . exact fun s h => ⟨.inl rfl, h⟩
  refine halloc.bind (fun root => Spec.fact fun hroot => ?_) (fun _ _ hf => hf.elim) fun _ hf => hf.elim
  refine Spec.ite (fun _ => Spec.fail fun _ _ => trivial) fun h0 => ?_
  have hlt := hroot.resolve_left h0
  refine (rising_spec (kvhashCreate_client _) top).bind (fun _ => ?_) (fun _ _ _ => trivial)
    fun _ _ => trivial
  exact Spec.ret fun s hs => ⟨hlt, hs⟩

-- The roots of a handle are ids that were not handed out before.
def FreshRoots (top : Nat) (h : Handle) : Prop := top < h.db.peopleRoot ∧ top < h.db.credRoot

theorem sbCommit_client (sbId : UInt64) (sb : Superblock) : Client cfg.toStoreCfg (sbCommit cfg Z sbId sb) :=
  (Client.ofExcept _).bind fun _ => Client.blobDbUpdate _ _

theorem createStore_fresh (sbId : UInt64) (nPersons : UInt32) :
    Spec H (fun s => top ≤ s.top) (createStore cfg Z sbId nPersons)
      ⟨fun h _ => h.sbId = sbId ∧ FreshRoots top h, fun _ _ => True, fun _ => True⟩ := by
  refine (newMap_fresh _).bind (fun people => Spec.fact fun hpeople => ?_) (fun _ _ h => h) fun _ h => h
  refine (newMap_fresh _).bind (fun cred => Spec.fact fun hcred => ?_) (fun _ _ h => h) fun _ h => h
  refine (rising_spec (sbCommit_client _ _) top).bind (fun _ => ?_) (fun _ _ _ => trivial) fun _ _ => trivial
  exact Spec.ret fun _ _ => ⟨rfl, hpeople, hcred⟩

theorem buildStore_fresh (hsound : Rootreg.Sound cfg.reg b)
    (hnone : bindings cfg.reg b padbRootregKey = none) (nPersons : UInt32) :
    Spec finding (fun s => s.blobs = b ∧ s.top = top) (buildStore cfg Z nPersons)
      ⟨fun h _ => top < h.sbId.toNat ∧ FreshRoots top h, fun _ _ => True, fun _ => True⟩ := by
  intro t ht
  have hnew := (@rootregGetOrCreate_issued _ cfg.reg finding b top t.ram (fun _ h => h) padbRootregKey).both
    (@rootregGetOrCreate_spec _ _ _ _ top t.ram (fun _ h => h) hsound padbRootregKey)
  refine (hnew.bind (R := ⟨fun h _ => top < h.sbId.toNat ∧ FreshRoots top h, fun _ _ => True,
    fun _ => True⟩) (f := fun sbId => createStore cfg Z sbId nPersons) (fun sbId => ?_)
    (fun _ _ _ => trivial) fun _ _ => trivial) t ⟨⟨ht.1, ht.2, rfl⟩, ht.1, ht.2, rfl⟩
  refine Spec.assuming (φ := top < sbId.toNat) ?_ fun hlt => ?_
  . rintro s ⟨hissued, -, -, hbound⟩
    rcases hissued.fresh sbId hbound with hold | hfresh
    . rw [hnone] at hold
      cases hold
    . exact hfresh.1
  . refine (createStore_fresh sbId nPersons).conseq (fun s hs => hs.1.top_le) ?_ (fun _ _ h => h)
      fun _ h => h
    rintro h s ⟨rfl, hroots⟩
    exact ⟨hlt, hroots⟩

-- Without its superblock a store is no more, and an open builds another one.
theorem persondbOpen_rebuilds (hmax : cfg.maxPayload ≤ cfg.maxObject) (hl : StoreLaid cfg Z p b0 top)
    (h : Forsaken p b0 b ∨ Destroyed cfg p b0 b) (nPersons : UInt32) :
    Spec finding (CalmAt cfg.toStoreCfg cap top b) (persondbOpen cfg Z nPersons)
      ⟨fun h _ => top < h.sbId.toNat ∧ FreshRoots top h, fun _ _ => True, fun _ => True⟩ := by
  have hbuild : ∀ {b' : Blobs}, Rootreg.Sound cfg.reg b' →
      bindings cfg.reg b' padbRootregKey = none →
      Spec finding (CalmAt cfg.toStoreCfg cap top b') (buildStore cfg Z nPersons)
        ⟨fun h _ => top < h.sbId.toNat ∧ FreshRoots top h, fun _ _ => True, fun _ => True⟩ :=
    fun hsound hnone => (buildStore_fresh hsound hnone nPersons).pre
      fun s hs => ⟨hs.1, hs.2.ids⟩
  rcases h with h | h
  . have hentry : bindings cfg.reg b padbRootregKey = some p.sbId :=
      (bindings_same (h.registry hl) _).trans hl.entry
    obtain ⟨es, hreg⟩ := registry_of_binding hentry
    refine (rootregInit_calm hreg).bind (fun _ => ?_) (fun _ _ hf => hf.elim) fun _ hf => hf.elim
    refine (rootregGet_calm padbRootregKey_ne hentry).attempt.bind (fun r => ?_) (fun _ _ hf => hf.elim)
      fun _ hf => hf.elim
    cases r with
    | error e => exact fun s hs _ => hs.elim
    | ok sbId =>
      refine Spec.fact ?_
      rintro rfl
      refine (blobDbGet_calm_none h.superblock).attempt.bind (fun r => ?_) (fun _ _ hf => hf.elim)
        fun _ hf => hf.elim
      cases r with
      | ok data => exact fun s hs _ => hs.elim
      | error e =>
        refine Spec.ite (fun _ => ?_) fun he => fun s hs _ => absurd hs.1 he
        obtain ⟨b', hu, hspec⟩ := @rootregUnregister_calm _ _ cap _ _ finding _ _ hmax hl.root_le
          (sound_same (h.registry hl) hl.sound) padbRootregKey_ne hentry
        refine (hspec.pre fun s hs => hs.2).attempt.bind (fun r => ?_) (fun _ _ hf => hf.elim)
          fun _ _ => trivial
        cases r with
        | ok u => exact hbuild hu.sound hu.gone
        | error e => exact fun s hs _ => hs.elim
  . cases hreg : registry cfg.reg b with
    | none => exact absurd hreg h.valid
    | some es =>
      refine (rootregInit_calm hreg).bind (fun _ => ?_) (fun _ _ hf => hf.elim) fun _ hf => hf.elim
      refine (rootregGet_calm_none padbRootregKey_ne hreg h.entry).attempt.bind (fun r => ?_)
        (fun _ _ hf => hf.elim) fun _ hf => hf.elim
      cases r with
      | ok sbId => exact fun s hs _ => hs.elim
      | error e =>
        exact Spec.ite (fun _ => (hbuild h.sound h.entry).pre fun s hs => hs.2)
          fun he => fun s hs _ => absurd hs.1 he

/-! An open as a client of the store -/

theorem newMap_client (mc : MapConfig) : Client cfg.toStoreCfg (newMap cfg mc) :=
  Client.blobDbAllocId.bind fun _ => Client.ite (Client.fail _)
    ((kvhashCreate_client _).bind fun _ => Client.ret _)

theorem createStore_client (sbId : UInt64) (nPersons : UInt32) :
    Client cfg.toStoreCfg (createStore cfg Z sbId nPersons) :=
  (newMap_client _).bind fun _ => (newMap_client _).bind fun _ => (sbCommit_client _ _).bind
    fun _ => Client.ret _

theorem buildStore_client (nPersons : UInt32) : Client cfg.toStoreCfg (buildStore cfg Z nPersons) :=
  (@rootregGetOrCreate_client _ cfg.reg _).bind fun _ => createStore_client _ _

theorem rootregUnregister_client (key : UInt64) :
    Client cfg.toStoreCfg (rootregUnregister cfg.reg key : K Unit) := by
  refine Client.ite (Client.fail _) (Client.after rrLoad_views fun es => ?_)
  cases rrFind es key with
  | none => exact Client.fail _
  | some idx => exact Client.blobDbUpdate _ _

theorem mapGone_client (root : Nat) : Client cfg.toStoreCfg (mapGone cfg root) := by
  refine kvhashStat_views.client.attempt.bind fun r => ?_
  cases r <;> exact Client.ret _

theorem unlessAbsent_client {x : K Unit} (hx : Client cfg.toStoreCfg x) :
    Client cfg.toStoreCfg (unlessAbsent x) := by
  refine hx.attempt.bind fun r => ?_
  cases r with
  | ok u => exact Client.ret _
  | error e => exact Client.ite (Client.ret _) (Client.fail _)

theorem tablesDrop_client (ts : List SbTable) : Client cfg.toStoreCfg (tablesDrop cfg ts) := by
  induction ts with
  | nil => exact Client.ret _
  | cons t ts ih =>
    exact Client.ite ((unlessAbsent_client kvhashDestroy_client).bind fun _ => ih)
      (ih.bind fun _ => Client.ret _)

theorem attachStore_client (sbId : UInt64) (data : List UInt8) :
    Client cfg.toStoreCfg (attachStore cfg Z sbId data) := by
  rw [attachStore]
  cases superblockCborDecode Z data with
  | error e => exact Client.fail _
  | ok sb =>
    refine (Client.ofExcept _).bind fun db => (mapGone_client _).bind fun _ => Client.ite (Client.fail _) ?_
    refine (mapGone_client _).bind fun _ => Client.ite (Client.fail _) (Client.ite (Client.ret _) ?_)
    exact (tablesDrop_client _).bind fun _ => (sbCommit_client _ _).bind fun _ => Client.ret _

theorem persondbOpen_client (nPersons : UInt32) : Client cfg.toStoreCfg (persondbOpen cfg Z nPersons) := by
  refine (@rootregInit_client _ cfg.reg).bind fun _ =>
    (rootregGet_views _).client.attempt.bind fun r => ?_
  cases r with
  | error e => exact Client.ite (buildStore_client _) (Client.fail _)
  | ok sbId =>
    refine (Client.readBlob _ _).attempt.bind fun r => ?_
    cases r with
    | ok data => exact Client.ite (createStore_client _ _) (attachStore_client _ _)
    | error e =>
      refine Client.ite ((rootregUnregister_client _).attempt.bind fun r => ?_) (Client.fail _)
      cases r with
      | ok u => exact buildStore_client _
      | error e => exact Client.ite (buildStore_client _) (Client.fail _)

-- Where no read fails, none is in the history.
theorem finding_calls (scfg : StoreCfg) :
    Calls scfg (fun s : World KvRam => s.reads = [] ∧ Finding s.history) := by
  have hedit : ∀ (w : World KvRam) id data t, w.reads = [] ∧ Finding w.history →
      (w.edit id data t).reads = [] ∧ Finding (w.edit id data t).history := by
    intro w id data t h
    refine ⟨h.1, fun ev hev => ?_⟩
    rcases List.mem_cons.mp hev with rfl | hev
    . trivial
    . exact h.2 ev hev
  refine ⟨⟨⟨fun w h => ⟨by rw [World.readDone, h.1, List.tail_nil], h.2⟩, fun w id e he h => ?_,
    fun w r h => h⟩, fun id w h => ?_⟩, fun id payload w h => ?_, fun w h => ?_⟩
  . rw [h.1] at he
    cases he
  . rcases blobDbDelete_met w id with ⟨-, hr⟩ | ⟨-, hr⟩
    all_goals rw [hr]
    . exact h
    . exact hedit w _ _ _ h
  . rcases blobDbUpdate_met scfg w id payload with ⟨-, hr⟩ | ⟨-, ⟨-, hr⟩ | ⟨-, hr⟩⟩
    all_goals rw [hr]
    . exact h
    . exact hedit w _ _ _ h
    . exact hedit w _ _ _ h
  . simp only [blobDbAllocId]
    split
    . exact h
    . split <;> exact h

/-! A destroy that is left its power -/

section

variable {rcfg : RegCfg}

theorem rrLoad_uncut : Uncut (rrLoad rcfg : K (List RrEntry)) :=
  (Uncut.blobDbGet _ _).bind fun _ => Uncut.ofExcept _

theorem rootregInit_uncut : Uncut (rootregInit rcfg : K Unit) := by
  refine rrLoad_uncut.attempt.bind fun r => ?_
  cases r with
  | ok es => exact Uncut.ret _
  | error e =>
    refine Uncut.ite (Uncut.fail _) ((Uncut.blobDbGet _ _).attempt.bind fun r => ?_)
    cases r with
    | ok probe => exact Uncut.ite (Uncut.fail _) (Uncut.blobDbUpdate _ _ _)
    | error e => exact Uncut.fail _

theorem rootregGet_uncut (key : UInt64) : Uncut (rootregGet rcfg key : K UInt64) := by
  refine Uncut.ite (Uncut.fail _) (rrLoad_uncut.bind fun es => ?_)
  cases rrFind es key with
  | none => exact Uncut.fail _
  | some idx => exact Uncut.ret _

theorem rootregUnregister_uncut (key : UInt64) : Uncut (rootregUnregister rcfg key : K Unit) := by
  refine Uncut.ite (Uncut.fail _) (rrLoad_uncut.bind fun es => ?_)
  cases rrFind es key with
  | none => exact Uncut.fail _
  | some idx => exact Uncut.blobDbUpdate _ _ _

end

theorem unlessAbsent_uncut {x : K Unit} (hx : Uncut x) : Uncut (unlessAbsent x) := by
  refine hx.attempt.bind fun r => ?_
  cases r with
  | ok u => exact Uncut.ret _
  | error e => exact Uncut.ite (Uncut.ret _) (Uncut.fail _)

theorem destroyAll_uncut (ts : List SbTable) : Uncut (destroyAll cfg ts) := by
  induction ts with
  | nil => exact Uncut.ret _
  | cons t ts ih => exact (unlessAbsent_uncut kvhashDestroy_uncut).bind fun _ => ih

theorem rootsChecked_uncut (sbId : UInt64) (ts : List SbTable) : Uncut (rootsChecked cfg sbId ts) := by
  induction ts with
  | nil => exact Uncut.ret _
  | cons t ts ih =>
    refine Uncut.ite (Uncut.fail _) (kvhashStat_uncut.attempt.bind fun r => ?_)
    cases r with
    | ok info => exact ih
    | error e => exact Uncut.ite ih (Uncut.fail _)

theorem forgetStore_uncut (sbId : UInt64) : Uncut (forgetStore cfg sbId) :=
  (unlessAbsent_uncut (Uncut.blobDbDelete _)).bind fun _ =>
    unlessAbsent_uncut (rootregUnregister_uncut _)

theorem persondbDestroy_uncut : Uncut (persondbDestroy cfg Z) := by
  refine rootregInit_uncut.bind fun _ => (rootregGet_uncut _).attempt.bind fun r => ?_
  cases r with
  | error e => exact Uncut.ite (Uncut.ret _) (Uncut.fail _)
  | ok sbId =>
    refine (Uncut.blobDbGet _ _).attempt.bind fun r => ?_
    cases r with
    | error e => exact Uncut.ite (forgetStore_uncut _) (Uncut.fail _)
    | ok data =>
      refine Uncut.ite (forgetStore_uncut _) ?_
      cases superblockCborDecode Z data with
      | error e => exact Uncut.fail _
      | ok sb =>
        refine Uncut.bind ?_ fun _ => forgetStore_uncut _
        exact (rootsChecked_uncut _ _).bind fun _ => (destroyAll_uncut _).bind fun _ => destroyAll_uncut _

/-! The system -/

-- A call with what the store does meanwhile, and what is in the RAM when it starts.
structure StoreCall where
  turns : List Turn
  allocs : List (Option Nat)
  ram : KvRam

-- Nothing fails but the power.
def StoreCall.Powered (c : StoreCall) : Prop := ∀ t ∈ c.turns, t.Powered

def StoreCall.Uncut (c : StoreCall) : Prop := ∀ t ∈ c.turns, ∀ landed, t ≠ .cut landed

def storeCall (w : World KvRam) (c : StoreCall) : World KvRam :=
  { w with
    turns := c.turns
    allocs := c.allocs
    reads := []
    ram := c.ram
    history := [] }

def destroyCall (cfg : KvdbCfg) (Z : Zcbor) (w : World KvRam) (c : StoreCall) :
    Out Errno Unit × World KvRam :=
  persondbDestroy cfg Z (storeCall w c)

def openCall (cfg : KvdbCfg) (Z : Zcbor) (nPersons : UInt32) (w : World KvRam) (c : StoreCall) :
    Out Errno Handle × World KvRam :=
  persondbOpen cfg Z nPersons (storeCall w c)

def runDestroys (cfg : KvdbCfg) (Z : Zcbor) (w : World KvRam) : List StoreCall → World KvRam
  | [] => w
  | c :: cs => runDestroys cfg Z (destroyCall cfg Z w c).2 cs

-- Between two calls.
structure Paused (cfg : KvdbCfg) (p : Parts) (b0 : Blobs) (cap top : Nat) (w : World KvRam) : Prop where
  remains : Remains cfg p b0 top w.blobs
  tallied : Tallied cfg.toStoreCfg w.blobs w.used
  room : w.used ≤ cap
  ids : w.top = top

theorem Unfailing.paused {w : World KvRam} (h : Unfailing cfg.toStoreCfg cap top w)
    (hr : Remains cfg p b0 top w.blobs) : Paused cfg p b0 cap top w :=
  ⟨hr, h.tallied, h.room, h.ids⟩

theorem Paused.unfailing {w : World KvRam} {c : StoreCall} (h : Paused cfg p b0 cap top w)
    (hc : c.Powered) : Unfailing cfg.toStoreCfg cap top (storeCall w c) :=
  ⟨rfl, hc, h.tallied, h.room, h.ids, by rintro ⟨_, hmem, -⟩; cases hmem⟩

def anyRun : Hypothesis (World KvRam) where
  holds _ := True
  anti _ _ := trivial

theorem destroyCall_paused (hmax : cfg.maxPayload ≤ cfg.maxObject) (hl : StoreLaid cfg Z p b0 top)
    {w : World KvRam} {c : StoreCall} (h : Paused cfg p b0 cap top w) (hc : c.Powered) :
    Paused cfg p b0 cap top (destroyCall cfg Z w c).2 ∧
      ((destroyCall cfg Z w c).1 = .ok () ∧ Destroyed cfg p b0 (destroyCall cfg Z w c).2.blobs ∨
        (destroyCall cfg Z w c).1 = .cut) := by
  have hpost := persondbDestroy_spec (H := anyRun) hmax hl h.remains (storeCall w c)
    ⟨rfl, h.unfailing hc⟩ trivial
  simp only [destroyCall]
  generalize persondbDestroy cfg Z (storeCall w c) = r at hpost
  obtain ⟨o, s⟩ := r
  cases o with
  | ok u =>
    obtain ⟨hu, hd⟩ := hpost
    exact ⟨Unfailing.paused hu (.inr (.inr hd)), .inl ⟨rfl, hd⟩⟩
  | err e => exact hpost.elim
  | cut =>
    obtain ⟨hu, hr⟩ := hpost
    exact ⟨Unfailing.paused hu hr, .inr rfl⟩

theorem runDestroys_paused (hmax : cfg.maxPayload ≤ cfg.maxObject) (hl : StoreLaid cfg Z p b0 top)
    {w : World KvRam} (cs : List StoreCall) (h : Paused cfg p b0 cap top w)
    (hcs : ∀ c ∈ cs, c.Powered) : Paused cfg p b0 cap top (runDestroys cfg Z w cs) := by
  induction cs generalizing w with
  | nil => exact h
  | cons c cs ih =>
    exact ih (destroyCall_paused hmax hl h (hcs c List.mem_cons_self)).1
      fun d hd => hcs d (List.mem_cons_of_mem _ hd)

theorem openCall_paused (hmax : cfg.maxPayload ≤ cfg.maxObject) (hl : StoreLaid cfg Z p b0 top)
    {w : World KvRam} {c : StoreCall} (h : Paused cfg p b0 cap top w) (hc : c.Powered) (nPersons : UInt32)
    {hdl : Handle}
    (ho : (openCall cfg Z nPersons w c).1 = .ok hdl) :
    w.blobs = b0 ∨ w.blobs p.sbId.toNat = none ∧ top < hdl.sbId.toNat ∧ FreshRoots top hdl := by
  have hfind : Finding (persondbOpen cfg Z nPersons (storeCall w c)).2.history :=
    (persondbOpen_client nPersons _ (finding_calls _) (storeCall w c) ⟨rfl, fun _ h => by cases h⟩).2
  have hfresh : Forsaken p b0 w.blobs ∨ Destroyed cfg p b0 w.blobs →
      top < hdl.sbId.toNat ∧ FreshRoots top hdl := by
    intro hgone
    have hpost := persondbOpen_rebuilds (b := w.blobs) hmax hl hgone nPersons (storeCall w c)
      ⟨rfl, h.unfailing hc⟩ hfind
    simp only [openCall] at ho
    generalize persondbOpen cfg Z nPersons (storeCall w c) = r at hpost ho
    obtain ⟨o, s⟩ := r
    cases ho
    exact hpost
  rcases h.remains with ⟨hgoing, hb | hbegun⟩ | hgone | hgone
  . exact .inl hb
  . have hpost := persondbOpen_going (H := anyRun) hl hgoing hbegun nPersons (storeCall w c)
      ⟨rfl, h.unfailing hc⟩ trivial
    simp only [openCall] at ho
    generalize persondbOpen cfg Z nPersons (storeCall w c) = r at hpost ho
    obtain ⟨o, s⟩ := r
    cases ho
    exact hpost.elim
  . exact .inr ⟨hgone.superblock, hfresh (.inl hgone)⟩
  . exact .inr ⟨hgone.superblock, hfresh (.inr hgone)⟩

/-- After any destroys of a store, cut or not: another one ends with 0 unless it is cut, and then every
blob of the tables, the superblock and the entry are gone and nothing else has changed. An open
never attaches to what is left of the store. -/
theorem persondb_destroy_resumes (hmax : cfg.maxPayload ≤ cfg.maxObject) {w : World KvRam}
    (hl : StoreLaid cfg Z p w.blobs w.top) (hfit : Tallied cfg.toStoreCfg w.blobs w.used)
    (cs : List StoreCall) (hcs : ∀ c ∈ cs, c.Powered) (c : StoreCall) (hc : c.Powered) :
    ((destroyCall cfg Z (runDestroys cfg Z w cs) c).1 = .ok () ∧
        Destroyed cfg p w.blobs (destroyCall cfg Z (runDestroys cfg Z w cs) c).2.blobs ∨
      (destroyCall cfg Z (runDestroys cfg Z w cs) c).1 = .cut ∧ ¬ c.Uncut) ∧
    ∀ nPersons hdl, (openCall cfg Z nPersons (runDestroys cfg Z w cs) c).1 = .ok hdl →
      (runDestroys cfg Z w cs).blobs = w.blobs ∨
        (runDestroys cfg Z w cs).blobs p.sbId.toNat = none ∧ w.top < hdl.sbId.toNat ∧
          FreshRoots w.top hdl := by
  have hstart : Paused cfg p w.blobs w.used w.top w :=
    ⟨.inl ⟨hl.going, .inl rfl⟩, hfit, le_rfl, rfl⟩
  have hrun := runDestroys_paused hmax hl cs hstart hcs
  refine ⟨?_, fun nPersons hdl ho => openCall_paused hmax hl hrun hc nPersons ho⟩
  rcases (destroyCall_paused hmax hl hrun hc).2 with hok | hcut
  . exact .inl hok
  . exact .inr ⟨hcut, fun hno => (persondbDestroy_uncut (storeCall _ c) hno).1 hcut⟩

-- A store of blobs, each with another id.
def blobsOf : List (Nat × List UInt8) → Blobs
  | [] => fun _ => none
  | (id, data) :: rest => Function.update (blobsOf rest) id (some data)

theorem blobsOf_none {l : List (Nat × List UInt8)} {id : Nat} (h : id ∉ l.map Prod.fst) :
    blobsOf l id = none := by
  induction l with
  | nil => rfl
  | cons x l ih =>
    rw [List.map_cons, List.mem_cons, not_or] at h
    rw [blobsOf, Function.update_of_ne h.1]
    exact ih h.2

theorem blobsOf_tallied {scfg : StoreCfg} {l : List (Nat × List UInt8)} (hids : (l.map Prod.fst).Nodup)
    (hroom : (l.map fun x => x.2.length).sum ≤ scfg.partition) :
    Tallied scfg (blobsOf l) (l.map fun x => x.2.length).sum := by
  induction l with
  | nil =>
    refine ⟨Nat.zero_le _, fun ids _ => ?_⟩
    have hzero : ids.map (blobsOf []).size = ids.map fun _ => 0 := rfl
    rw [hzero]
    simp
  | cons x l ih =>
    rw [List.map_cons, List.nodup_cons] at hids
    rw [List.map_cons, List.sum_cons] at hroom ⊢
    have hrest := ih hids.2 (by omega)
    have hsize : (blobsOf l).size x.1 = 0 := by rw [Blobs.size, blobsOf_none hids.1]; rfl
    have hstep := @Tallied.update scfg _ _ x.1 (some x.2) hrest (by rw [Option.getD_some]; omega)
    rw [hsize, Nat.sub_zero, Option.getD_some, Nat.add_comm] at hstep
    exact hstep

-- A map of one level that has no bucket so far.
theorem mapWhole_empty {kcfg : KvCfg} {root n : Nat} (hpos : 0 < root) (hle : root ≤ top)
    (hlt : top < 2 ^ 64) (hn : 2 ≤ n) (hfits : dirLen n ≤ kcfg.maxPayload)
    (hb : b root = some (dirImage kvhashDirMagic kvhashVersion 1 n fun _ => 0)) :
    MapWhole kcfg root (fun id => id = root) b top := by
  have hg : Shape.Ok kcfg ⟨root, kvhashVersion, 1, 1, n⟩ :=
    ⟨(by decide : kvhashVersionMin ≤ kvhashVersion), le_rfl, hn, hfits, .inl ⟨rfl, rfl⟩⟩
  have hone : ¬ (1 : Nat) = 2 := by decide
  have hlaid : Laid ⟨root, kvhashVersion, 1, 1, n⟩ (fun _ => root) b top :=
    ⟨fun _ => rfl, fun h => absurd h hone, fun _ _ => hb, fun h => absurd h hone,
      fun t u htu hu => absurd hu (by simp only; omega), fun _ _ => ⟨hpos, hle⟩, hpos, hle, hlt⟩
  refine ⟨_, _, rfl, hlaid.stored hg, fun id => ⟨?_, ?_⟩⟩
  . rintro rfl
    exact ⟨.leaf 0, .leaf Nat.one_pos⟩
  . rintro ⟨r, ho⟩
    rcases Table.empty_owns ho with ⟨-, hd, -⟩ | ⟨t, -, -, rfl⟩
    . exact absurd hd hone
    . rfl

-- A build with room for a superblock.
def officeKvdb : KvdbCfg := { smallKvdb with maxObject := 300 }

-- A store with a table of a newer build.
def mixedSb : Superblock :=
  ⟨superblockVersion, [⟨sbTablePeople, 3, sbClassRequired, sbSchemaPeople⟩,
    ⟨sbTableCred, 4, sbClassRequired, sbSchemaCred⟩, ⟨7, 5, sbClassDerived, 9⟩], 4, 0, 0⟩

def mixedParts : Parts := ⟨2, zcbor.put (superblockToks mixedSb), mixedSb, fun root id => id = root.toNat⟩

def noBuckets : List UInt8 := dirImage kvhashDirMagic kvhashVersion 1 2 fun _ => 0

def mixedBlobs : List (Nat × List UInt8) :=
  [(1, rrImage [⟨padbRootregKey, 2⟩]), (2, mixedParts.bytes), (3, noBuckets), (4, noBuckets), (5, noBuckets)]

def mixedStore : World KvRam :=
  ⟨blobsOf mixedBlobs, 5, (mixedBlobs.map fun x => x.2.length).sum, [], [], [], KvRam.boot smallMap, []⟩

theorem mixedStore_laid : StoreLaid officeKvdb zcbor mixedParts mixedStore.blobs mixedStore.top := by
  have hmap : ∀ root ∈ [3, 4, 5], mixedStore.blobs root = some noBuckets := by decide
  have hreg : registry officeKvdb.reg mixedStore.blobs = some [⟨padbRootregKey, 2⟩] := by decide +kernel
  have hroots : ∀ t ∈ mixedParts.sb.tables, t.root.toNat ∈ [3, 4, 5] := by decide
  have hlone : ∀ id, ¬ id ∈ [3, 4, 5] → ¬ mixedParts.Owns id := by
    rintro id hid ⟨t, ht, ho⟩
    have ho : id = t.root.toNat := ho
    exact hid (ho ▸ hroots t ht)
  refine ⟨⟨?_, ?_, rfl, ?_, ?_, ?_, ?_, ?_⟩, fun t ht => ?_, fun t ht u hu => ?_, hlone _ ?_, hlone _ ?_⟩
  . rw [bindings_of hreg]
    decide
  . intro es hes
    rw [hreg] at hes
    cases hes
    exact List.nodup_singleton _
  . decide +kernel
  . decide +kernel
  . decide +kernel
  . decide
  . intro id hid
    have hid : 5 < id := hid
    refine blobsOf_none ?_
    simp only [mixedBlobs, List.map_cons, List.map_nil, List.mem_cons, List.not_mem_nil, or_false]
    omega
  . have hr := hroots t ht
    have hbounds : 0 < t.root.toNat ∧ t.root.toNat ≤ 5 := by
      simp only [List.mem_cons, List.not_mem_nil, or_false] at hr
      omega
    exact mapWhole_empty hbounds.1 hbounds.2 (by decide) le_rfl (by decide) (hmap _ hr)
  . by_cases he : t.root = u.root
    . exact .inl he
    . refine .inr fun id hid hid' => he ?_
      have hid : id = t.root.toNat := hid
      have hid' : id = u.root.toNat := hid'
      exact UInt64.toNat.inj (hid.symm.trans hid')
  . decide
  . decide

-- Two destroys are cut.
def cutTwice : List StoreCall :=
  [⟨[.cut true], [], KvRam.boot smallMap⟩, ⟨[.done, .done, .done, .cut false], [], KvRam.boot smallMap⟩]

theorem cutTwice_powered : ∀ c ∈ cutTwice, c.Powered := by
  intro c hc t ht e landed he
  subst he
  revert c
  simp [cutTwice]

theorem mixedStore_tallied : Tallied officeKvdb.toStoreCfg mixedStore.blobs mixedStore.used :=
  blobsOf_tallied (by decide) (by decide +kernel)

theorem persondb_destroy_resumes_mixed :
    (destroyCall officeKvdb zcbor (runDestroys officeKvdb zcbor mixedStore cutTwice)
        ⟨[], [], KvRam.boot smallMap⟩).1 = .ok () ∧
      Destroyed officeKvdb mixedParts mixedStore.blobs
        (destroyCall officeKvdb zcbor (runDestroys officeKvdb zcbor mixedStore cutTwice)
          ⟨[], [], KvRam.boot smallMap⟩).2.blobs := by
  refine ((persondb_destroy_resumes (by decide) mixedStore_laid mixedStore_tallied cutTwice cutTwice_powered
    ⟨[], [], KvRam.boot smallMap⟩ (fun t ht => by cases ht)).1).resolve_right fun h => h.2 ?_
  intro t ht
  cases ht

end KeyValueDb.Persondb
