import KeyValueDb.Containers.KvhashWalk

/-!
A new map is empty. A build whose payloads are too small for the directory of a default map writes a
root that no call can load.
-/

namespace KeyValueDb.Containers

variable {cfg : KvCfg} {H : Hypothesis (World KvRam)} {b b' : Blobs} {top top' : Nat}
  {lim : Nat × Nat} {dir bkt : List UInt8} {root : Nat}

/-! Geometry -/

-- What a map with this geometry is at `root`.
def Geometry.shape (geo : Geometry) (root : Nat) : Shape where
  root := root
  version := kvhashVersion
  depth := geo.depth
  fan := if geo.depth = 1 then 1 else geo.nTop
  n := if geo.depth = 1 then geo.nTop else geo.nSub

-- The order of the keys of a map with this geometry, wherever its root is.
def keyOrder (cfg : KvCfg) (geo : Geometry) : List UInt8 → List UInt8 → Ordering :=
  keyCmp cfg (geo.shape 0)

instance (cfg : KvCfg) (geo : Geometry) : Std.TransCmp (keyOrder cfg geo) :=
  inferInstanceAs (Std.TransCmp (keyCmp _ _))

instance (cfg : KvCfg) (geo : Geometry) : Std.LawfulEqCmp (keyOrder cfg geo) :=
  inferInstanceAs (Std.LawfulEqCmp (keyCmp _ _))

-- A payload that holds one directory holds no more buckets than its field can count.
theorem StoreCfg.maxBuckets_lt (cfg : KvCfg) {n : Nat} (h : dirLen n ≤ cfg.maxPayload) :
    cfg.maxBuckets < 2 ^ 16 := by
  have hle := cfg.payload_le
  simp only [dirLen, dirHdrLen, entLenMask] at h hle
  simp only [StoreCfg.maxBuckets, dirHdrLen]
  omega

theorem deriveGeometry_ok {mc : Option MapConfig} {geo : Geometry}
    (h : deriveGeometry cfg mc = some (.ok geo)) :
    geo.depth = 1 ∧ 2 ≤ geo.nTop ∨
      geo.depth = 2 ∧ geo.nSub = geo.nTop ∧ (dirLen geo.nTop ≤ cfg.maxPayload → 2 ≤ geo.nTop) := by
  simp only [deriveGeometry] at h
  split at h
  . cases h
  split at h
  . cases h
  split at h
  . cases h
    exact .inl ⟨rfl, by decide⟩
  split at h
  . cases h
    exact .inl ⟨rfl, Nat.le_max_left _ _⟩
  split at h
  . cases h
  . next side _ =>
    split at h
    . cases h
    . next hside =>
      cases h
      refine .inr ⟨rfl, rfl, fun hfits => ?_⟩
      have := StoreCfg.maxBuckets_lt cfg hfits
      simp only
      omega

theorem Geometry.shape_ok {mc : Option MapConfig} {geo : Geometry}
    (h : deriveGeometry cfg mc = some (.ok geo)) (hfits : dirLen geo.nTop ≤ cfg.maxPayload) :
    (geo.shape root).Ok cfg := by
  have hversion : kvhashVersionMin ≤ kvhashVersion := by decide
  rcases deriveGeometry_ok h with ⟨hd, hn⟩ | ⟨hd, hsub, hn⟩
  . refine ⟨hversion, le_rfl, ?_, ?_, .inl ⟨hd, ?_⟩⟩
    all_goals simp only [Geometry.shape, hd, if_true]
    . exact hn
    . exact hfits
  . have hne : ¬ geo.depth = 1 := by omega
    refine ⟨hversion, le_rfl, ?_, ?_, .inr ⟨hd, ?_, ?_⟩⟩
    all_goals simp only [Geometry.shape, if_neg hne, hsub]
    . exact hn hfits
    . exact hfits
    . exact hn hfits
    . exact hfits

/-! The sub-maps -/

-- The first `i` children of the top directory are empty sub-maps, each in a blob of its own.
structure Built (nSub i : Nat) (b : Blobs) (top : Nat) (b' : Blobs) (top' : Nat) (child : Nat → Nat) :
    Prop where
  grown : Grown b top b' top'
  ids : ∀ j < i, top < child j ∧ child j ≤ top'
  apart : ∀ j k, j < k → k < i → child j < child k
  live : ∀ j < i, b' (child j) = some (dirImage kvhashDirMagic kvhashVersion 1 nSub fun _ => 0)

theorem Built.next {nSub i : Nat} {child : Nat → Nat} (h : Built nSub i b top b' top' child) {sub : Nat}
    (hsub : top' < sub) (hlt : sub < 2 ^ 64) :
    Built nSub (i + 1) b top
      (Function.update b' sub (some (dirImage kvhashDirMagic kvhashVersion 1 nSub fun _ => 0))) sub
      (Function.update child i sub) := by
  have hle := h.grown.top_le
  have hold : ∀ j < i, Function.update child i sub j = child j :=
    fun j hj => Function.update_of_ne (by omega) _ _
  refine ⟨⟨by omega, hlt, fun id hid => ?_⟩, fun j hj => ?_, fun j k hjk hk => ?_, fun j hj => ?_⟩
  . rw [Function.update_of_ne (by omega)]
    exact h.grown.same id hid
  . rcases Nat.lt_or_eq_of_le (Nat.le_of_lt_succ hj) with hj | rfl
    . have := h.ids j hj
      rw [hold j hj]
      omega
    . rw [Function.update_self]
      omega
  . rcases Nat.lt_or_eq_of_le (Nat.le_of_lt_succ hk) with hk | rfl
    . rw [hold j (by omega), hold k hk]
      exact h.apart j k hjk hk
    . have := h.ids j hjk
      rw [hold j hjk, Function.update_self]
      omega
  . rcases Nat.lt_or_eq_of_le (Nat.le_of_lt_succ hj) with hj | rfl
    . have := h.ids j hj
      rw [hold j hj, Function.update_of_ne (by omega)]
      exact h.live j hj
    . rw [Function.update_self, Function.update_self]

-- An update that returned has taken effect.
theorem kvUpdate_done (id : Nat) (payload : List UInt8) :
    Spec H (Sees b top lim dir bkt) (kvUpdate cfg id payload)
      ⟨fun _ => Sees (Function.update b id (some payload)) top lim dir bkt, fun _ _ => True,
        fun _ => True⟩ :=
  Spec.blobDbUpdate (fun _ hs _ => hs.edited id _ rfl) (fun _ _ _ _ _ => trivial)
    (fun _ _ _ _ => trivial) fun _ _ _ => trivial

theorem createSubs_spec {nSub n k i : Nat} (hk : i + k = n) {child : Nat → Nat}
    (h : Built nSub i b top b' top' child) :
    Spec H
      (Sees b' top' lim (dirImage kvhashDirMagic kvhashVersion 2 n child)
        (dirImage kvhashDirMagic kvhashVersion 1 nSub fun _ => 0))
      (createSubs cfg nSub k i)
      ⟨fun _ s => ∃ b'' top'' child', Built nSub n b top b'' top'' child' ∧
          Sees b'' top'' lim (dirImage kvhashDirMagic kvhashVersion 2 n child') [] s,
        fun _ _ => True, fun _ => True⟩ := by
  induction k generalizing i b' top' child with
  | zero =>
    obtain rfl : i = n := hk
    exact Spec.ret fun s hs => ⟨b', top', child, h, hs.weaken List.prefix_rfl List.nil_prefix⟩
  | succ k ih =>
    refine blobDbAllocId_spec.bind (fun sub => ?_) (fun _ _ _ => trivial) fun _ _ => trivial
    refine Spec.ite (fun _ => Spec.fail fun _ _ => trivial) fun hsub => ?_
    refine Spec.pre (P := fun s => (top' < sub ∧ sub < 2 ^ 64) ∧ Sees b' sub lim _ _ s)
      (Spec.fact fun hnew => ?_) fun s hs => hs.resolve_left fun h0 => hsub h0.1
    refine Spec.bktBuf ?_
    rintro _ ⟨rest, rfl⟩
    have htake : (dirImage kvhashDirMagic kvhashVersion 1 nSub (fun _ => 0) ++ rest).take
        (dirLen nSub) = dirImage kvhashDirMagic kvhashVersion 1 nSub fun _ => 0 :=
      List.take_left' (dirImage_length _ _ _ _ _)
    rw [htake]
    refine (kvUpdate_done sub _).bind (fun _ => ?_) (fun _ _ _ => trivial) fun _ _ => trivial
    refine Spec.setDirBuf
      (dirImage kvhashDirMagic kvhashVersion 2 n (Function.update child i sub)) ?_ ?_
    . rintro _ ⟨rest', rfl⟩
      rw [dirSetChild_image (by omega)]
      exact List.prefix_append _ _
    . exact ih (by omega) (h.next hnew.1 hnew.2)

/-! The new map -/

def Table.empty (leaf : Nat → Nat) : Table := ⟨leaf, fun _ => 0, fun _ => []⟩

theorem Table.empty_map (cfg : KvCfg) (g : Shape) (leaf : Nat → Nat) :
    (Table.empty leaf).map cfg g = fun _ => none := rfl

-- Where each blob has one role, there is a function from blobs to roles.
theorem owner_of_unique {g : Shape} {tbl : Table}
    (h : ∀ r r' id, tbl.Owns g r id → tbl.Owns g r' id → r = r') :
    ∃ owner : Nat → Option Role, ∀ r id, tbl.Owns g r id → owner id = some r := by
  classical
  refine ⟨fun id => if he : ∃ r, tbl.Owns g r id then some he.choose else none, fun r id ho => ?_⟩
  have he : ∃ r, tbl.Owns g r id := ⟨r, ho⟩
  exact (dif_pos he).trans (congrArg some (h _ _ _ he.choose_spec ho))

theorem Table.empty_owns {g : Shape} {leaf : Nat → Nat} {r : Role} {id : Nat}
    (ho : (Table.empty leaf).Owns g r id) :
    r = .root ∧ g.depth = 2 ∧ id = g.root ∨ ∃ t < g.fan, r = .leaf t ∧ id = leaf t := by
  cases ho with
  | root hd => exact .inl ⟨rfl, hd, rfl⟩
  | @leaf t ht => exact .inr ⟨t, ht, rfl, rfl⟩
  | bucket _ h => exact absurd rfl h
  | key _ hp _ => cases hp
  | val _ hp _ => cases hp

-- The root directory leads to sub-maps, or is the only directory.
structure Laid (g : Shape) (leaf : Nat → Nat) (b : Blobs) (top : Nat) : Prop where
  one_level : g.depth = 1 → leaf 0 = g.root
  top_dir : g.depth = 2 → b g.root = some (dirImage kvhashDirMagic g.version 2 g.fan leaf)
  leaf_dir : ∀ t < g.fan, b (leaf t) = some (dirImage kvhashDirMagic g.version 1 g.n fun _ => 0)
  apart : g.depth = 2 → ∀ t < g.fan, leaf t ≠ g.root
  unlike : ∀ t u, t < u → u < g.fan → leaf t ≠ leaf u
  ids : ∀ t < g.fan, 0 < leaf t ∧ leaf t ≤ top
  root_pos : 0 < g.root
  root_le : g.root ≤ top
  top_lt : top < 2 ^ 64

theorem Laid.stored {g : Shape} {leaf : Nat → Nat} (h : Laid g leaf b top) (hg : g.Ok cfg) :
    Stored cfg g (Table.empty leaf) b top where
  shape := hg
  one_level := h.one_level
  top_dir := h.top_dir
  leaf_dir := h.leaf_dir
  bucket c _ h0 := absurd rfl h0
  small c _ := Nat.zero_le _
  empty c _ _ := rfl
  sound c _ p hp := by cases hp
  placed c _ p hp := by cases hp
  distinct c _ := List.nodup_nil
  owner := by
    refine owner_of_unique fun r r' id ho ho' => ?_
    rcases Table.empty_owns ho with ⟨rfl, hd, rfl⟩ | ⟨t, ht, rfl, rfl⟩
    . rcases Table.empty_owns ho' with ⟨rfl, _, _⟩ | ⟨u, hu, rfl, he⟩
      . rfl
      . exact absurd he.symm (h.apart hd u hu)
    . rcases Table.empty_owns ho' with ⟨rfl, hd, he⟩ | ⟨u, hu, rfl, he⟩
      . exact absurd he (h.apart hd t ht)
      . rcases Nat.lt_trichotomy t u with hlt | rfl | hlt
        . exact absurd he (h.unlike t u hlt hu)
        . rfl
        . exact absurd he.symm (h.unlike u t hlt ht)
  ids r id ho := by
    rcases Table.empty_owns ho with ⟨_, _, rfl⟩ | ⟨t, ht, _, rfl⟩
    . exact ⟨h.root_pos, h.root_le⟩
    . exact h.ids t ht
  top_lt := h.top_lt

-- The root is longer than what a load takes.
def Oversized (cfg : KvCfg) (root : Nat) (b : Blobs) : Prop :=
  ∃ data, b root = some data ∧ cfg.maxPayload < data.length

-- The store holds the map `m`, or it holds an unusable one, which is empty.
def Keeps (cfg : KvCfg) (g : Shape) (m : KvMap) (b : Blobs) (top : Nat) : Prop :=
  (∃ tbl, Stored cfg g tbl b top ∧ tbl.map cfg g = m) ∨
    Oversized cfg g.root b ∧ m = fun _ => none

theorem oversized_written {n depth : Nat} {child : Nat → Nat} (h : cfg.maxPayload < dirLen n) :
    Oversized cfg root
      (Function.update b root (some (dirImage kvhashDirMagic kvhashVersion depth n child))) :=
  ⟨_, Function.update_self _ _ _, by rwa [dirImage_length]⟩

-- A directory that is written to the root.
theorem Keeps.root_written {geo : Geometry} {mc : Option MapConfig} {leaf child : Nat → Nat} {depth : Nat}
    (hgeo : deriveGeometry cfg mc = some (.ok geo))
    (h : Laid (geo.shape root) leaf
      (Function.update b root (some (dirImage kvhashDirMagic kvhashVersion depth geo.nTop child))) top) :
    Keeps cfg (geo.shape root) (fun _ => none)
        (Function.update b root (some (dirImage kvhashDirMagic kvhashVersion depth geo.nTop child)))
        top ∧
      (Oversized cfg root
          (Function.update b root
            (some (dirImage kvhashDirMagic kvhashVersion depth geo.nTop child))) →
        cfg.maxPayload < dirLen geo.nTop) := by
  refine ⟨?_, ?_⟩
  rotate_left
  . rintro ⟨data, hdata, hlong⟩
    rw [Function.update_self] at hdata
    cases hdata
    rwa [dirImage_length] at hlong
  by_cases hfits : dirLen geo.nTop ≤ cfg.maxPayload
  . exact .inl ⟨_, h.stored (Geometry.shape_ok hgeo hfits), Table.empty_map _ _ _⟩
  . exact .inr ⟨oversized_written (by omega), rfl⟩

theorem Laid.one (hpos : 0 < root) (hle : root ≤ top) (hlt : top < 2 ^ 64) {geo : Geometry}
    (hd : geo.depth = 1) :
    Laid (geo.shape root) (fun _ => root)
      (Function.update b root (some (dirImage kvhashDirMagic kvhashVersion 1 geo.nTop fun _ => 0)))
      top where
  one_level _ := rfl
  top_dir h2 := by
    have : geo.depth = 2 := h2
    omega
  leaf_dir t _ := by
    rw [Function.update_self]
    simp only [Geometry.shape, hd, if_true]
  apart h2 := by
    have : geo.depth = 2 := h2
    omega
  unlike t u htu hu := by
    simp only [Geometry.shape, hd, if_true] at hu
    omega
  ids _ _ := ⟨hpos, hle⟩
  root_pos := hpos
  root_le := hle
  top_lt := hlt

theorem Built.laid (hpos : 0 < root) (hle : root ≤ top) {geo : Geometry} (hd : geo.depth = 2)
    {child : Nat → Nat} (h : Built geo.nSub geo.nTop b top b' top' child) :
    Laid (geo.shape root) child
      (Function.update b' root (some (dirImage kvhashDirMagic kvhashVersion 2 geo.nTop child)))
      top' := by
  have hne : ¬ geo.depth = 1 := by omega
  have hfan : (geo.shape root).fan = geo.nTop := if_neg hne
  have hn : (geo.shape root).n = geo.nSub := if_neg hne
  have hids : ∀ t < (geo.shape root).fan, root < child t ∧ child t ≤ top' := by
    intro t ht
    have := h.ids t (hfan ▸ ht)
    omega
  have htop := h.grown.top_le
  exact
    { one_level := fun h1 => absurd h1 hne
      top_dir := fun _ => by rw [hfan]; exact Function.update_self _ _ _
      leaf_dir := fun t ht => by
        have := hids t ht
        rw [Function.update_of_ne (by omega), hn]
        exact h.live t (hfan ▸ ht)
      apart := fun _ t ht => (hids t ht).1.ne'
      unlike := fun t u htu hu => (h.apart t u htu (hfan ▸ hu)).ne
      ids := fun t ht => ⟨by have := hids t ht; omega, (hids t ht).2⟩
      root_pos := hpos
      root_le := hle.trans htop
      top_lt := h.grown.top_lt }

-- Besides the root, a new map has only new blobs, unless its directory does not fit into a payload.
def StartedAt (cfg : KvCfg) (geo : Geometry) (root : Nat) (b' : Blobs) (top' top : Nat) : Prop :=
  ∃ leaf, (dirLen geo.nTop ≤ cfg.maxPayload →
      Stored cfg (geo.shape root) (Table.empty leaf) b' top') ∧
    (cfg.maxPayload < dirLen geo.nTop → Oversized cfg root b') ∧
    ∀ t < (geo.shape root).fan, leaf t = root ∨ top < leaf t

theorem kvhashCreate_started (mc : Option MapConfig) (hpos : 0 < root) (hle : root ≤ top)
    (hlt : top < 2 ^ 64) :
    Spec H (Sees b top lim dir bkt) (kvhashCreate cfg root mc)
      ⟨fun _ s => ∃ geo, deriveGeometry cfg mc = some (.ok geo) ∧
          ∃ b' top', Sees b' top' lim [] [] s ∧ StartedAt cfg geo root b' top' top ∧
            Keeps cfg (geo.shape root) (fun _ => none) b' top' ∧
            (Oversized cfg root b' → cfg.maxPayload < dirLen geo.nTop),
        fun _ _ => True, fun _ => True⟩ := by
  rw [kvhashCreate]
  cases hgeo : deriveGeometry cfg mc with
  | none => exact Spec.cut fun _ _ => trivial
  | some r =>
    cases r with
    | error e => exact Spec.fail fun _ _ => trivial
    | ok geo =>
      have hformat : ∀ n depth buf,
          dirImage kvhashDirMagic kvhashVersion depth n (fun _ => 0) <+: dirFormat buf n depth := by
        intro n depth buf
        rw [dirFormat_eq]
        exact List.prefix_append _ _
      refine Spec.ite (fun hd => ?_) fun hd => ?_
      . refine Spec.setDirBuf _ (fun buf _ => hformat geo.nTop 1 buf) (Spec.dirBuf ?_)
        rintro _ ⟨rest, rfl⟩
        rw [List.take_left' (dirImage_length _ _ _ _ _)]
        refine (kvUpdate_done root _).conseq (fun _ hs => hs) ?_ (fun _ _ _ => trivial)
          fun _ _ => trivial
        intro _ s hs
        have hlaid := Laid.one (b := b) hpos hle hlt hd
        exact ⟨geo, rfl, _, top, hs.idle,
          ⟨_, fun hfits => hlaid.stored (Geometry.shape_ok hgeo hfits), oversized_written,
            fun _ _ => .inl rfl⟩,
          Keeps.root_written hgeo hlaid⟩
      . have hd : geo.depth = 2 := by
          rcases deriveGeometry_ok hgeo with ⟨h1, _⟩ | ⟨h2, _⟩
          . exact absurd h1 hd
          . exact h2
        refine Spec.setDirBuf _ (fun buf _ => hformat geo.nTop 2 buf) ?_
        refine Spec.setBktBuf _ (fun buf _ => hformat geo.nSub 1 buf) ?_
        have hnone : Built geo.nSub 0 b top b top fun _ => 0 :=
          ⟨⟨le_rfl, hlt, fun _ _ => rfl⟩, nofun, nofun, nofun⟩
        refine (createSubs_spec (Nat.zero_add _) hnone).bind (fun _ => ?_) (fun _ _ _ => trivial)
          fun _ _ => trivial
        refine Spec.given fun b' => Spec.given fun top' => Spec.given fun child =>
          Spec.fact fun hbuilt => Spec.dirBuf ?_
        rintro _ ⟨rest, rfl⟩
        rw [List.take_left' (dirImage_length _ _ _ _ _)]
        refine (kvUpdate_done root _).conseq (fun _ hs => hs) ?_ (fun _ _ _ => trivial)
          fun _ _ => trivial
        intro _ s hs
        have hlaid := hbuilt.laid hpos hle hd
        have hfan : (geo.shape root).fan = geo.nTop := if_neg (by omega)
        exact ⟨geo, rfl, _, top', hs.idle,
          ⟨_, fun hfits => hlaid.stored (Geometry.shape_ok hgeo hfits), oversized_written,
            fun t ht => .inr (hbuilt.ids t (hfan ▸ ht)).1⟩,
          Keeps.root_written hgeo hlaid⟩

theorem kvhashCreate_spec (mc : Option MapConfig) (hpos : 0 < root) (hle : root ≤ top)
    (hlt : top < 2 ^ 64) :
    Spec H (Sees b top lim dir bkt) (kvhashCreate cfg root mc)
      ⟨fun _ s => ∃ geo, deriveGeometry cfg mc = some (.ok geo) ∧
          ∃ b' top', Sees b' top' lim [] [] s ∧ Keeps cfg (geo.shape root) (fun _ => none) b' top' ∧
            (Oversized cfg root b' → cfg.maxPayload < dirLen geo.nTop),
        fun _ _ => True, fun _ => True⟩ := by
  refine (kvhashCreate_started mc hpos hle hlt).conseq (fun _ hs => hs) ?_ (fun _ _ h => h)
    fun _ h => h
  rintro _ s ⟨geo, hgeo, b', top', hs, _, hkeeps⟩
  exact ⟨geo, hgeo, b', top', hs, hkeeps⟩

end KeyValueDb.Containers
