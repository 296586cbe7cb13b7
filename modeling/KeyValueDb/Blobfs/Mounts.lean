import KeyValueDb.Blobfs.Renames

/-!
Mounts: a file system that lies in the store is found, a rename under way is settled, and where there is
no file system an empty one is made.
-/

namespace KeyValueDb.Blobfs

open Containers Kvdb Rootreg

-- There is a registry, and no file system yet.
structure Virgin (cfg : RegCfg) (b : Items) (top : Nat) : Prop extends Tidy b top where
  registry : ∃ data es, b blobDbRootId = some (.blob data) ∧ rrCheck cfg data = .ok es ∧
    ∀ idx, rrFind es blobfsKey = some idx →
      (es.getD idx ⟨0, 0⟩).rootId.toNat ≠ blobDbRootId ∧ (es.getD idx ⟨0, 0⟩).rootId.toNat ≠ 0 ∧
        (es.getD idx ⟨0, 0⟩).rootId.toNat ≤ top ∧
        (b (es.getD idx ⟨0, 0⟩).rootId.toNat = none ∨ b (es.getD idx ⟨0, 0⟩).rootId.toNat = some (.blob []))

section

variable {cfg : RegCfg} {fs : FsCfg} {H : Hypothesis (WithRam MapStore Session)} {α : Type} {b b' : Items}
  {top k id metaId root : Nat} {φ : Prop} {st : Session} {V V' : Files}

theorem says_registry {data : List UInt8} {es : List RrEntry} (hb : b blobDbRootId = some (.blob data))
    (hcheck : rrCheck cfg data = .ok es) : Says (AtRest b top k φ) (storeRegistry cfg) (.ok es) := by
  have hlen : data.length ≤ cfg.imageMax := by
    obtain ⟨hle, heq⟩ := rrCheck_length hcheck
    unfold RegCfg.imageMax
    omega
  unfold storeRegistry
  apply (says_blobGet hb hlen).bind
  rw [hcheck]
  exact Says.ofExcept _

theorem blobfsKey_ne : ¬ blobfsKey = 0 := by decide

theorem says_registered (h : Anchored cfg b top metaId) :
    ∃ rid : UInt64, rid.toNat = metaId ∧
      Says (AtRest b top k φ) (storeGetOrCreate cfg blobfsKey) (.ok rid) := by
  obtain ⟨data, es, idx, hdata, hcheck, hfind, hid⟩ := h.registered
  refine ⟨_, hid, ?_⟩
  unfold storeGetOrCreate
  rw [if_neg blobfsKey_ne]
  apply (says_registry hdata hcheck).bind
  simp only [hfind]
  exact Says.ret _

-- What a mount leaves of the session.
def mountedAs (v1 : Bool) (metaId root : Nat) : Session := ⟨true, v1, false, metaId, root⟩

theorem mount_rule {Q : Post (WithRam MapStore Session) Errno Unit} (hm : st.mounted = false)
    (ha : Anchored cfg b top metaId) {data : List UInt8} {m : Meta} {v1 : Bool}
    (hdata : b metaId = some (.blob data)) (hof : metaOf fs data = .ok (m, v1))
    (hattach : Spec H (On b top 0 True st) (attach (storeBacking cfg) fs metaId m v1) Q) :
    Spec H (On b top 0 True st) (blobfsMount (storeBacking cfg) fs) Q := by
  obtain ⟨rid, rfl, hrid⟩ := says_registered (k := 0) (φ := True) ha
  unfold blobfsMount
  apply says_session.rule_ok
  rw [if_neg (by rw [hm]; decide)]
  apply (says_below hrid).rule_ok
  apply (says_metaRead hdata hof).attempt.rule_ok
  exact hattach

theorem mount_lies (hm : st.mounted = false) (h : Lies cfg fs b top metaId root V) :
    Spec H (On b top 0 True st) (blobfsMount (storeBacking cfg) fs)
      ⟨fun _ s => ∃ v1, On b top 0 True (mountedAs v1 metaId root) s, fun _ _ => False, fun _ => False⟩ := by
  obtain ⟨m, ⟨data, v1, hdata, hof⟩, h0, rfl⟩ := h.info
  apply mount_rule hm h.anchored hdata hof
  unfold attach
  apply setSession_rule
  rw [if_neg (not_not.mpr h0)]
  exact setSession_on fun s hs => ⟨v1, hs⟩

theorem mount_flight {b0 : Items} {x : Move} (hm : st.mounted = false)
    (h : Flight cfg fs b0 root metaId V x b top) :
    Spec H (On b top 0 True st) (blobfsMount (storeBacking cfg) fs)
      ⟨fun _ s => ∃ b', Settled cfg fs b0 root metaId V x b' top ∧ On b' top 0 True (mountedAs false metaId root) s,
        fun _ _ => False,
        fun s => Flight cfg fs b0 root metaId V x s.base.items s.base.top ∨
          Settled cfg fs b0 root metaId V x s.base.items s.base.top⟩ := by
  obtain ⟨m, ⟨data, v1, hdata, hof⟩, hrec⟩ := h.info
  obtain rfl := hrec.dirRoot
  apply mount_rule hm h.anchored hdata hof
  unfold attach
  apply setSession_rule
  rw [if_pos hrec.inFlight]
  have hrecover : Spec H (On b top 0 True
      { st with metaId := metaId, dirRoot := m.dirRoot, metaV1 := v1, intentPending := false })
      (renameRecover (storeBacking cfg) fs m) (settles cfg fs b0 V x top
        { st with metaId := metaId, dirRoot := m.dirRoot, metaV1 := v1, intentPending := false }) :=
    recover_settles h hdata hof hrec
  apply hrecover.attempt.bind
  . intro o
    cases o with
    | error e => exact fun s hs => hs.elim
    | ok u =>
      apply Spec.given
      intro b'
      apply Spec.fact
      intro hsettled
      exact setSession_on fun s hs => ⟨b', hsettled, hs⟩
  . exact fun _ _ h => h.elim
  . exact fun s hs => hs

/-! A new file system -/

-- The registry has an id for a meta that was not written.
structure Seat (cfg : RegCfg) (b : Items) (top metaId : Nat) : Prop extends Anchored cfg b top metaId where
  pos : metaId ≠ 0
  le : metaId ≤ top
  empty : b metaId = none ∨ b metaId = some (.blob [])

theorem Seat.virgin (h : Seat cfg b top metaId) : Virgin cfg b top where
  toTidy := h.toTidy
  registry := by
    obtain ⟨data, es, idx, hdata, hcheck, hfind, rfl⟩ := h.registered
    refine ⟨data, es, hdata, hcheck, ?_⟩
    intro i hi
    rw [hfind] at hi
    cases hi
    exact ⟨h.apart, h.pos, h.le, h.empty⟩

theorem Seat.outside (h : Seat cfg b top metaId) (hid : top < id) (hlt : id < 2 ^ 64) (item : Option Item) :
    Seat cfg (Function.update b id item) id metaId where
  toAnchored := by
    have hreg := h.registry_le
    exact (h.raise (le_of_lt hid) hlt).edited le_rfl (by omega) (by omega) item
  pos := h.pos
  le := h.le.trans (le_of_lt hid)
  empty := by
    have hle := h.le
    rw [Function.update_of_ne (by omega)]
    exact h.empty

-- An empty directory is a file system.
theorem bare_built (hb : b root = some (.map ∅)) (hreg : root ≠ blobDbRootId) (hmeta : root ≠ metaId) :
    Built b root metaId bare := by
  have hfinal : (table b).Final root := final_item hb fun es he => by cases he; rfl
  have hwalk := hfinal.walk
  constructor
  . exact ⟨∅, hb⟩
  . intro p d es name val hp hd hval
    rw [hwalk] at hp
    split at hp
    . cases hp
      rw [hb] at hd
      cases hd
      rw [AList.lookup_empty] at hval
      cases hval
    . cases hp
  . intro p q i hp hq
    rw [hwalk] at hp hq
    split at hp
    . next hp' =>
      split at hq
      . next hq' => rw [hp', hq']
      . cases hq
    . cases hp
  . intro p hp
    rw [hwalk] at hp
    split at hp
    . exact hreg (Option.some.inj hp)
    . cases hp
  . intro p hp
    rw [hwalk] at hp
    split at hp
    . exact hmeta (Option.some.inj hp)
    . cases hp
  . funext q
    rw [Hierarchy.view, hwalk, bare]
    split
    . rw [Option.bind_some, table_map hb]
      rfl
    . rfl

-- What a mount that finds no file system leaves.
def founds (cfg : RegCfg) (fs : FsCfg) (st : Session) : Post (WithRam MapStore Session) Errno Unit where
  ok _ s := ∃ b top metaId root, Lies cfg fs b top metaId root bare ∧ On b top 0 True (mountedAs false metaId root) s
  err _ s := ∃ b top, Virgin cfg b top ∧ On b top 0 True st s
  cut s := Virgin cfg s.base.items s.base.top ∨
    ∃ metaId root, Lies cfg fs s.base.items s.base.top metaId root bare

theorem founds_cut (h : Virgin cfg b top) {s : WithRam MapStore Session} (hb : s.base.items = b)
    (ht : s.base.top = top) : (founds cfg fs st).cut s := by
  subst hb ht
  exact .inl h

theorem createFs_founds (h : Seat cfg b top metaId) :
    Spec H (On b top 0 True st) (createFs (storeBacking cfg) fs metaId) (founds cfg fs st) := by
  unfold createFs
  apply alloc_rule
  . rw [if_pos rfl]
    exact fun s hs _ => ⟨b, top, h.virgin, hs⟩
  intro id hid hlt
  have hle := h.le
  have hreg := h.registry_le
  rw [if_neg (by omega)]
  have hseat := h.outside hid hlt (some (.map ∅))
  have hsound : (freshMeta fs id).Sound fs :=
    ⟨(by decide : 0 < 256), (by decide : 0 < 256), (by decide : 0 < 256), hlt, Nat.two_pow_pos _, Nat.two_pow_pos _,
      Nat.two_pow_pos _, by simp [freshMeta, nameArray], by simp [freshMeta, nameArray]⟩
  have hlies : Lies cfg fs (Function.update (Function.update b id (some (.map ∅))) metaId
      (some (.blob (metaImage fs (freshMeta fs id))))) id metaId id bare := by
    refine ⟨hseat.toAnchored.edited hseat.le h.pos h.apart _,
      ⟨_, ⟨_, false, Function.update_self .., metaOf_image hsound⟩, rfl, rfl⟩, bare_built ?_ (by omega) (by omega)⟩
    rw [Function.update_of_ne (by omega), Function.update_self]
  apply below_rewrites fun H => writeItem_rewrites id _
  rotate_left
  . rintro s (hb | hb) htop
    . exact founds_cut ⟨h.toTidy.raise (le_of_lt hid) hlt, by
        obtain ⟨data, es, hdata, hcheck, hidx⟩ := h.virgin.registry
        refine ⟨data, es, hdata, hcheck, fun idx hfind => ?_⟩
        obtain ⟨h1, h2, h3, h4⟩ := hidx idx hfind
        exact ⟨h1, h2, by omega, h4⟩⟩ hb htop
    . exact founds_cut hseat.virgin hb htop
  apply below_rewrites fun H => blobUpdate_rewrites metaId _
  rotate_left
  . rintro s (hb | hb) htop
    . exact founds_cut hseat.virgin hb htop
    . subst htop
      exact .inr ⟨metaId, _, hb ▸ hlies⟩
  unfold attach
  apply setSession_rule
  rw [if_neg (show ¬ (freshMeta fs id).renameInFlight ≠ 0 from not_not.mpr rfl)]
  exact setSession_on fun s hs => ⟨_, id, metaId, id, hlies, hs⟩

theorem says_noMeta (h : b id = none ∨ b id = some (.blob [])) :
    Says (On b top k φ st) (metaRead (storeBacking cfg) fs id : F MapStore (Meta × Bool)) (.error Errno.ENOENT) := by
  unfold metaRead
  rcases h with h | h
  . exact (says_below (says_blobGet_none h)).bind_error
  . apply (says_below (says_blobGet h (Nat.zero_le _))).bind
    exact Says.ofExcept _

theorem mount_founds (hm : st.mounted = false) (h : Virgin cfg b top) :
    Spec H (On b top 0 True st) (blobfsMount (storeBacking cfg) fs) (founds cfg fs st) := by
  obtain ⟨data, es, hdata, hcheck, hidx⟩ := h.registry
  have hlen := (rrCheck_length hcheck).1
  unfold blobfsMount
  apply says_session.rule_ok
  rw [if_neg (by rw [hm]; decide)]
  show Spec H _ ((storeGetOrCreate cfg blobfsKey).below >>= _) _
  unfold storeGetOrCreate
  rw [if_neg blobfsKey_ne, Proc.below_bind, Proc.bind_assoc]
  apply (says_below (says_registry hdata hcheck)).rule_ok
  cases hfind : rrFind es blobfsKey with
  | some idx =>
    obtain ⟨hne, hpos, hle, hempty⟩ := hidx idx hfind
    apply Spec.ret_bind
    apply (says_noMeta hempty).attempt.rule_ok
    exact createFs_founds ⟨⟨h.toTidy, ⟨data, es, idx, hdata, hcheck, hfind, rfl⟩, hne⟩, hpos, hle, hempty⟩
  | none =>
    by_cases hfull : cfg.maxRoots ≤ es.length
    . simp only [if_pos hfull]
      exact fun s hs _ => ⟨b, top, h, hs⟩
    simp only [if_neg hfull]
    rw [Proc.below_bind, Proc.bind_assoc]
    apply alloc_rule
    . rw [if_pos rfl]
      exact fun s hs _ => ⟨b, top, h, hs⟩
    intro id hid hlt
    have hreg : blobDbRootId ≤ top := h.bound_le hdata
    have hid64 : (UInt64.ofNat id).toNat = id := UInt64.toNat_ofNat_of_lt' hlt
    have hnew : rrFind (es ++ [⟨blobfsKey, UInt64.ofNat id⟩]) blobfsKey = some es.length := by
      unfold rrFind at hfind ⊢
      rw [List.findIdx?_append, hfind]
      simp
    have hseat : Seat cfg (Function.update b blobDbRootId
        (some (.blob (rrImage (es ++ [⟨blobfsKey, UInt64.ofNat id⟩]))))) id id := by
      refine ⟨⟨(h.toTidy.raise (le_of_lt hid) hlt).edited (by omega) (by decide) _,
        ⟨_, _, _, Function.update_self .., rrCheck_image cfg ?_, hnew, ?_⟩, by omega⟩, by omega, le_rfl, .inl ?_⟩
      . simp only [List.length_append, List.length_singleton]
        omega
      . simpa using hid64
      . rw [Function.update_of_ne (by omega)]
        exact h.above id hid
    rw [if_neg (by omega), Proc.below_bind, Proc.bind_assoc]
    apply below_rewrites fun H => blobUpdate_rewrites blobDbRootId _
    . show Spec H _ ((pure (UInt64.ofNat id) : F MapStore UInt64) >>= _) _
      apply Spec.ret_bind
      rw [hid64]
      apply (says_noMeta hseat.empty).attempt.rule_ok
      exact createFs_founds hseat
    . rintro s (hb | hb) htop
      . refine founds_cut ⟨h.toTidy.raise (le_of_lt hid) hlt, data, es, hdata, hcheck, fun idx hidx => ?_⟩ hb htop
        rw [hfind] at hidx
        cases hidx
      . exact founds_cut hseat.virgin hb htop

end

end KeyValueDb.Blobfs
