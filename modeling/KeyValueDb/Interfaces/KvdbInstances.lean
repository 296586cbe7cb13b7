import KeyValueDb.Interfaces.Kvdb
import KeyValueDb.Registry.RootregRuns
import KeyValueDb.Containers.KvhashCalls
import KeyValueDb.Containers.KvhashShared

/-!
Instances side by side. Each name that was opened has a map of its own, in blobs that no other
instance and no meta blob has, and a call on one instance leaves the maps of the others alone.
-/

namespace KeyValueDb.Kvdb

open Containers Rootreg

/-! The instances of a store -/

-- An instance: its name, its map, and the blobs that the map is in.
structure Inst where
  name : CStr
  shape : Shape
  own : Nat → Prop
  map : KvMap

-- The instances by the hash of their names.
abbrev Ledger := UInt32 → Option Inst

structure Inv (cfg : KvdbCfg) (l : Ledger) (b : Blobs) (top : Nat) : Prop where
  sound : Sound cfg.reg b
  tidy : ∀ id, top < id → b id = none
  top_pos : 1 ≤ top
  top_lt : top < 2 ^ 64
  meta_id : ∀ h mid, bindings cfg.reg b (kvdbKey h) = some mid → 1 < mid.toNat ∧ mid.toNat ≤ top
  meta_inj : ∀ h h' mid, bindings cfg.reg b (kvdbKey h) = some mid →
    bindings cfg.reg b (kvdbKey h') = some mid → h = h'
  unmade : ∀ h mid, bindings cfg.reg b (kvdbKey h) = some mid → l h = none → b mid.toNat = none
  made : ∀ h i, l h = some i → ∃ mid, bindings cfg.reg b (kvdbKey h) = some mid ∧
    b mid.toNat = some (metaImage Backend.hash.code i.shape.root i.name.chars)
  named : ∀ h i, l h = some i → nameHash i.name.chars = h ∧ i.name.chars.length ≤ kvdbNameMax
  built : ∀ h i, l h = some i → resolve cfg Backend.hash.code = true
  stored : ∀ h i, l h = some i → MapAt cfg.toKvCfg i.shape i.own i.map b top
  own_ids : ∀ h i, l h = some i → ∀ id, i.own id → id ≠ blobDbRootId ∧
    ∀ h' mid, bindings cfg.reg b (kvdbKey h') = some mid → id ≠ mid.toNat
  disjoint : ∀ h h' i i', l h = some i → l h' = some i' → h ≠ h' → ∀ id, i.own id → ¬ i'.own id

-- What was opened stays, and no map but the one at `touched` has changed.
def Later (touched : Option Nat) (l l' : Ledger) : Prop :=
  ∀ h i, l h = some i → ∃ i', l' h = some i' ∧ i'.name = i.name ∧ i'.shape = i.shape ∧
    (touched ≠ some i.shape.root → i'.map = i.map)

variable {cfg : KvdbCfg} {H : Hypothesis (World KvRam)} {l l' l'' : Ledger} {b b' : Blobs}
  {top top' : Nat} {r : KvRam} {touched : Option Nat}

theorem Later.refl (l : Ledger) : Later touched l l := fun _ i hi => ⟨i, hi, rfl, rfl, fun _ => rfl⟩

-- A ledger with one instance more.
theorem Later.insert {h : UInt32} (hnone : l h = none) (i : Inst) :
    Later touched l (Function.update l h (some i)) := by
  intro h' i' hi'
  refine ⟨i', ?_, rfl, rfl, fun _ => rfl⟩
  rw [Function.update_of_ne, hi']
  rintro rfl
  rw [hnone] at hi'
  cases hi'

theorem bindings_congr {c : RegCfg} (h : b' blobDbRootId = b blobDbRootId) :
    bindings c b' = bindings c b := by
  funext key
  simp only [bindings, registry, h]

theorem sound_congr {c : RegCfg} (h : b' blobDbRootId = b blobDbRootId) (hs : Sound c b) :
    Sound c b' := by
  intro es hes
  rw [registry, h] at hes
  exact hs es hes

namespace Inv

variable (hi : Inv cfg l b top)

include hi

-- The root of an instance tells it from the others.
theorem root_inj {h h' : UInt32} {i i' : Inst} (hl : l h = some i) (hl' : l h' = some i')
    (hroot : i.shape.root = i'.shape.root) : h = h' := by
  by_contra hne
  have hown := (hi.stored h i hl).root_own
  rw [hroot] at hown
  exact hi.disjoint h h' i i' hl hl' hne _ hown (hi.stored h' i' hl').root_own

-- The registry has at most one key more, with a new id.
theorem registered {touchedKey : Option UInt64} (hm : Moved cfg.reg touchedKey none b b')
    (htidy : ∀ id, top' < id → b' id = none) (hle : top ≤ top') (hlt : top' < 2 ^ 64)
    (hfresh : ∀ h mid, bindings cfg.reg b' (kvdbKey h) = some mid →
      bindings cfg.reg b (kvdbKey h) = some mid ∨
        touchedKey = some (kvdbKey h) ∧ top < mid.toNat ∧ mid.toNat ≤ top') :
    Inv cfg l b' top' := by
  have hsame : ∀ id, id ≠ blobDbRootId → b' id = b id := hm.frame
  have htop := hi.top_pos
  have hmeta : ∀ h mid, bindings cfg.reg b' (kvdbKey h) = some mid →
      1 < mid.toNat ∧ mid.toNat ≤ top' := by
    intro h mid hb
    rcases hfresh h mid hb with hold | ⟨_, h1, h2⟩
    . have := hi.meta_id h mid hold
      omega
    . omega
  have hkept : ∀ h mid, bindings cfg.reg b (kvdbKey h) = some mid →
      bindings cfg.reg b' (kvdbKey h) = some mid := fun h mid hb => hm.kept _ _ nofun hb
  refine ⟨hm.sound, htidy, htop.trans hle, hlt, hmeta, ?_, ?_, ?_, hi.named, hi.built, ?_, ?_,
    hi.disjoint⟩
  . intro h h' mid hb hb'
    rcases hfresh h mid hb with hold | ⟨ht, h1, _⟩
    . rcases hfresh h' mid hb' with hold' | ⟨_, h1', _⟩
      . exact hi.meta_inj h h' mid hold hold'
      . have := hi.meta_id h mid hold
        omega
    . rcases hfresh h' mid hb' with hold' | ⟨ht', _, _⟩
      . have := hi.meta_id h' mid hold'
        omega
      . rw [ht] at ht'
        exact kvdbKey_inj (Option.some.inj ht')
  . intro h mid hb hnone
    have hne : mid.toNat ≠ blobDbRootId := by
      have := hmeta h mid hb
      simp only [blobDbRootId]
      omega
    rw [hsame _ hne]
    rcases hfresh h mid hb with hold | ⟨_, h1, _⟩
    . exact hi.unmade h mid hold hnone
    . exact hi.tidy _ h1
  . intro h i hl
    obtain ⟨mid, hb, hdata⟩ := hi.made h i hl
    refine ⟨mid, hkept h mid hb, ?_⟩
    rw [hsame, hdata]
    have := hi.meta_id h mid hb
    simp only [blobDbRootId]
    omega
  . intro h i hl
    exact (hi.stored h i hl).congr (fun id ho => hsame id (hi.own_ids h i hl id ho).1) hle hlt
  . intro h i hl id ho
    refine ⟨(hi.own_ids h i hl id ho).1, fun h' mid hb => ?_⟩
    rcases hfresh h' mid hb with hold | ⟨_, h1, _⟩
    . exact (hi.own_ids h i hl id ho).2 h' mid hold
    . have := (hi.stored h i hl).ids ho
      omega

-- There are new blobs.
theorem grown (hsame : ∀ id ≤ top, b' id = b id) (htidy : ∀ id, top' < id → b' id = none)
    (hle : top ≤ top') (hlt : top' < 2 ^ 64) : Inv cfg l b' top' := by
  have hroot : b' blobDbRootId = b blobDbRootId := hsame _ hi.top_pos
  have hbind : bindings cfg.reg b' = bindings cfg.reg b := bindings_congr hroot
  refine ⟨sound_congr hroot hi.sound, htidy, hi.top_pos.trans hle, hlt, ?_, ?_, ?_, ?_, hi.named,
    hi.built, ?_, ?_, hi.disjoint⟩
  . intro h mid hb
    rw [hbind] at hb
    have := hi.meta_id h mid hb
    omega
  . rw [hbind]
    exact hi.meta_inj
  . intro h mid hb hnone
    rw [hbind] at hb
    rw [hsame _ (hi.meta_id h mid hb).2]
    exact hi.unmade h mid hb hnone
  . intro h i hl
    obtain ⟨mid, hb, hdata⟩ := hi.made h i hl
    refine ⟨mid, hbind ▸ hb, ?_⟩
    rw [hsame _ (hi.meta_id h mid hb).2, hdata]
  . intro h i hl
    exact (hi.stored h i hl).congr (fun id ho => hsame id ((hi.stored h i hl).ids ho).2) hle hlt
  . rw [hbind]
    exact hi.own_ids

-- A registered name gets its meta blob, which leads to a new map.
theorem born {name : CStr} {mid : UInt64} {g : Shape} {own : Nat → Prop}
    (hmid : bindings cfg.reg b (kvdbKey (nameHash name.chars)) = some mid) (hlen : name.chars.length ≤ kvdbNameMax)
    (hbuilt : resolve cfg Backend.hash.code = true)
    (hmap : MapAt cfg.toKvCfg g own (fun _ => none) b top)
    (hown : ∀ id, own id → id ≠ blobDbRootId ∧
      (∀ h mid, bindings cfg.reg b (kvdbKey h) = some mid → id ≠ mid.toNat) ∧
      ∀ h i, l h = some i → ¬ i.own id) :
    Inv cfg (Function.update l (nameHash name.chars) (some ⟨name, g, own, fun _ => none⟩))
      (Function.update b mid.toNat (some (metaImage Backend.hash.code g.root name.chars))) top := by
  have hone : blobDbRootId ≠ mid.toNat := by
    have := hi.meta_id _ mid hmid
    simp only [blobDbRootId]
    omega
  have hroot : Function.update b mid.toNat
      (some (metaImage Backend.hash.code g.root name.chars)) blobDbRootId = b blobDbRootId :=
    Function.update_of_ne hone _ _
  have hbind := bindings_congr (c := cfg.reg) hroot
  have hcase : ∀ h i, Function.update l (nameHash name.chars)
      (some ⟨name, g, own, fun _ => none⟩) h = some i →
      h = nameHash name.chars ∧ i = ⟨name, g, own, fun _ => none⟩ ∨
        h ≠ nameHash name.chars ∧ l h = some i := by
    intro h i hl
    by_cases he : h = nameHash name.chars
    . subst he
      rw [Function.update_self, Option.some.injEq] at hl
      exact .inl ⟨rfl, hl.symm⟩
    . rw [Function.update_of_ne he] at hl
      exact .inr ⟨he, hl⟩
  have hother : ∀ h mid', h ≠ nameHash name.chars →
      bindings cfg.reg b (kvdbKey h) = some mid' → mid'.toNat ≠ mid.toNat := by
    intro h mid' hne hb he
    rw [UInt64.toNat_inj] at he
    rw [he] at hb
    exact hne (hi.meta_inj h _ mid hb hmid)
  refine ⟨sound_congr hroot hi.sound, ?_, hi.top_pos, hi.top_lt, ?_, ?_, ?_, ?_, ?_, ?_, ?_, ?_, ?_⟩
  . intro id hid
    have := hi.meta_id _ mid hmid
    rw [Function.update_of_ne (by omega)]
    exact hi.tidy id hid
  . rw [hbind]
    exact hi.meta_id
  . rw [hbind]
    exact hi.meta_inj
  . intro h mid' hb hl
    rw [hbind] at hb
    have hne : h ≠ nameHash name.chars := by
      rintro rfl
      rw [Function.update_self] at hl
      cases hl
    rw [Function.update_of_ne hne] at hl
    rw [Function.update_of_ne (hother h mid' hne hb)]
    exact hi.unmade h mid' hb hl
  . intro h i hl
    rw [hbind]
    rcases hcase h i hl with ⟨rfl, rfl⟩ | ⟨hne, hl⟩
    . exact ⟨mid, hmid, Function.update_self _ _ _⟩
    . obtain ⟨mid', hb, hdata⟩ := hi.made h i hl
      exact ⟨mid', hb, by rw [Function.update_of_ne (hother h mid' hne hb), hdata]⟩
  . intro h i hl
    rcases hcase h i hl with ⟨rfl, rfl⟩ | ⟨_, hl⟩
    . exact ⟨rfl, hlen⟩
    . exact hi.named h i hl
  . exact fun _ _ _ => hbuilt
  . intro h i hl
    rcases hcase h i hl with ⟨rfl, rfl⟩ | ⟨_, hl⟩
    . refine hmap.congr (fun id ho => ?_) le_rfl hi.top_lt
      exact Function.update_of_ne ((hown id ho).2.1 _ mid hmid) _ _
    . refine (hi.stored h i hl).congr (fun id ho => ?_) le_rfl hi.top_lt
      exact Function.update_of_ne ((hi.own_ids h i hl id ho).2 _ mid hmid) _ _
  . intro h i hl id ho
    rw [hbind]
    rcases hcase h i hl with ⟨rfl, rfl⟩ | ⟨_, hl⟩
    . exact ⟨(hown id ho).1, (hown id ho).2.1⟩
    . exact hi.own_ids h i hl id ho
  . intro h h' i i' hl hl' hne id ho ho'
    rcases hcase h i hl with ⟨rfl, rfl⟩ | ⟨_, hl⟩
    . rcases hcase h' i' hl' with ⟨rfl, _⟩ | ⟨_, hl'⟩
      . exact hne rfl
      . exact (hown id ho).2.2 h' i' hl' ho'
    . rcases hcase h' i' hl' with ⟨rfl, rfl⟩ | ⟨_, hl'⟩
      . exact (hown id ho').2.2 h i hl ho
      . exact hi.disjoint h h' i i' hl hl' hne id ho ho'

-- A call on the map of one instance.
theorem beside {h : UInt32} {i : Inst} {own' : Nat → Prop} {m' : KvMap} (hl : l h = some i)
    (hmap : MapAt cfg.toKvCfg i.shape own' m' b' top')
    (hb : Beside i.own b top own' b' top') (htidy : ∀ id, top' < id → b' id = none) :
    Inv cfg (Function.update l h (some { i with own := own', map := m' })) b' top' ∧
      Later (some i.shape.root) l (Function.update l h (some { i with own := own', map := m' })) := by
  have hone : ¬ i.own blobDbRootId := fun ho => (hi.own_ids h i hl _ ho).1 rfl
  have hroot : b' blobDbRootId = b blobDbRootId := hb.same _ hi.top_pos hone
  have hbind := bindings_congr (c := cfg.reg) hroot
  have hlt := hmap.top_lt
  have hmeta : ∀ h' mid, bindings cfg.reg b (kvdbKey h') = some mid → b' mid.toNat = b mid.toNat := by
    intro h' mid hm
    refine hb.same _ (hi.meta_id h' mid hm).2 fun ho => ?_
    exact (hi.own_ids h i hl _ ho).2 h' mid hm rfl
  have hnew : ∀ id, own' id → i.own id ∨ top < id := by
    intro id ho
    by_contra hno
    simp only [not_or, Nat.not_lt] at hno
    exact hb.apart id hno.2 hno.1 ho
  have hcase : ∀ h' i', Function.update l h (some { i with own := own', map := m' }) h' = some i' →
      h' = h ∧ i' = { i with own := own', map := m' } ∨ h' ≠ h ∧ l h' = some i' := by
    intro h' i' hl'
    by_cases he : h' = h
    . subst he
      rw [Function.update_self, Option.some.injEq] at hl'
      exact .inl ⟨rfl, hl'.symm⟩
    . rw [Function.update_of_ne he] at hl'
      exact .inr ⟨he, hl'⟩
  constructor
  . refine ⟨sound_congr hroot hi.sound, htidy, hi.top_pos.trans hb.top_le, hlt, ?_, ?_, ?_, ?_, ?_,
      ?_, ?_, ?_, ?_⟩
    . intro h' mid hm
      rw [hbind] at hm
      have := hi.meta_id h' mid hm
      have := hb.top_le
      omega
    . rw [hbind]
      exact hi.meta_inj
    . intro h' mid hm hl'
      rw [hbind] at hm
      have hne : h' ≠ h := by
        rintro rfl
        rw [Function.update_self] at hl'
        cases hl'
      rw [Function.update_of_ne hne] at hl'
      rw [hmeta h' mid hm]
      exact hi.unmade h' mid hm hl'
    . intro h' i' hl'
      rw [hbind]
      rcases hcase h' i' hl' with ⟨rfl, rfl⟩ | ⟨_, hl'⟩
      . obtain ⟨mid, hm, hdata⟩ := hi.made h' i hl
        exact ⟨mid, hm, by rw [hmeta h' mid hm, hdata]⟩
      . obtain ⟨mid, hm, hdata⟩ := hi.made h' i' hl'
        exact ⟨mid, hm, by rw [hmeta h' mid hm, hdata]⟩
    . intro h' i' hl'
      rcases hcase h' i' hl' with ⟨rfl, rfl⟩ | ⟨_, hl'⟩
      . exact hi.named h' i hl
      . exact hi.named h' i' hl'
    . exact fun _ _ _ => hi.built h i hl
    . intro h' i' hl'
      rcases hcase h' i' hl' with ⟨rfl, rfl⟩ | ⟨hne, hl'⟩
      . exact hmap
      . refine (hi.stored h' i' hl').congr (fun id ho => ?_) hb.top_le hlt
        exact hb.same id ((hi.stored h' i' hl').ids ho).2 fun ho' =>
          hi.disjoint h' h i' i hl' hl hne id ho ho'
    . intro h' i' hl' id ho
      rw [hbind]
      rcases hcase h' i' hl' with ⟨rfl, rfl⟩ | ⟨_, hl'⟩
      . rcases hnew id ho with ho | hlt
        . exact hi.own_ids h' i hl id ho
        . have := hi.top_pos
          refine ⟨by simp only [blobDbRootId]; omega, fun h'' mid hm => ?_⟩
          have := hi.meta_id h'' mid hm
          omega
      . exact hi.own_ids h' i' hl' id ho
    . intro h₁ h₂ i₁ i₂ hl₁ hl₂ hne id ho₁ ho₂
      rcases hcase h₁ i₁ hl₁ with ⟨rfl, rfl⟩ | ⟨_, hold₁⟩
      . rcases hcase h₂ i₂ hl₂ with ⟨rfl, _⟩ | ⟨_, hold₂⟩
        . exact hne rfl
        . rcases hnew id ho₁ with ho | hlt
          . exact hi.disjoint h₁ h₂ i i₂ hl hold₂ hne id ho ho₂
          . have := (hi.stored h₂ i₂ hold₂).ids ho₂
            omega
      . rcases hcase h₂ i₂ hl₂ with ⟨rfl, rfl⟩ | ⟨_, hold₂⟩
        . rcases hnew id ho₂ with ho | hlt
          . exact hi.disjoint h₁ h₂ i₁ i hold₁ hl hne id ho₁ ho
          . have := (hi.stored h₁ i₁ hold₁).ids ho₁
            omega
        . exact hi.disjoint h₁ h₂ i₁ i₂ hold₁ hold₂ hne id ho₁ ho₂
  . intro h' i' hl'
    by_cases he : h' = h
    . subst he
      rw [hl, Option.some.injEq] at hl'
      subst hl'
      refine ⟨_, Function.update_self _ _ _, rfl, rfl, fun hne => absurd rfl hne⟩
    . exact ⟨i', by rw [Function.update_of_ne he, hl'], rfl, rfl, fun _ => rfl⟩

end Inv

end KeyValueDb.Kvdb
