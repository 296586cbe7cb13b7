import KeyValueDb.Containers.KvhashSearch

/-!
What a map is on flash: its directories, its buckets, the pairs in them and the blobs of their keys
and values, each blob with one role. Seen from above this is a function from keys to values.
-/

namespace KeyValueDb.Containers

abbrev KvMap := List UInt8 → Option (List UInt8)

-- What create fixed of a map. In one level its only leaf directory is its root.
structure Shape where
  root : Nat
  version : Nat
  depth : Nat
  -- the number of leaf directories, and of the buckets of each
  fan : Nat
  n : Nat
  deriving Repr, DecidableEq

structure Shape.Ok (cfg : KvCfg) (g : Shape) : Prop where
  version_ge : kvhashVersionMin ≤ g.version
  version_le : g.version ≤ kvhashVersion
  n_ge : 2 ≤ g.n
  n_fits : dirLen g.n ≤ cfg.maxPayload
  levels : g.depth = 1 ∧ g.fan = 1 ∨ g.depth = 2 ∧ 2 ≤ g.fan ∧ dirLen g.fan ≤ cfg.maxPayload

-- The leaf directory and the bucket of a key.
def Shape.place (cfg : KvCfg) (g : Shape) (key : List UInt8) : Nat × Nat :=
  (if g.depth = 1 then 0 else idxTop (cfg.hash key) g.fan, idxSub (cfg.hash key) g.n)

def Shape.In (g : Shape) (c : Nat × Nat) : Prop := c.1 < g.fan ∧ c.2 < g.n

structure Table where
  leaf : Nat → Nat
  -- 0 if there is no bucket
  bid : Nat × Nat → Nat
  pairs : Nat × Nat → List Pair

def lookup (ps : List Pair) (k : List UInt8) : Option (List UInt8) :=
  (ps.find? fun p => p.key = k).map Pair.val

namespace Table

def map (cfg : KvCfg) (g : Shape) (tbl : Table) : KvMap := fun k => lookup (tbl.pairs (g.place cfg k)) k

-- The cell `c` gets a bucket with other pairs.
def put (tbl : Table) (c : Nat × Nat) (bid : Nat) (ps : List Pair) : Table :=
  { tbl with
    bid := Function.update tbl.bid c bid
    pairs := Function.update tbl.pairs c ps }

end Table

-- What a blob of a map is for.
inductive Role where
  | root
  | leaf (t : Nat)
  | bucket (c : Nat × Nat)
  | key (k : List UInt8)
  | val (k : List UInt8)
  deriving DecidableEq

-- The role is one of the cell `c`, or of the directory that it is in.
def Role.OfCell (cfg : KvCfg) (g : Shape) (c : Nat × Nat) : Role → Prop
  | .root => False
  | .leaf t => t = c.1
  | .bucket d => d = c
  | .key k => g.place cfg k = c
  | .val k => g.place cfg k = c

-- The blobs that can be reached from the root.
inductive Table.Owns (g : Shape) (tbl : Table) : Role → Nat → Prop where
  | root (h : g.depth = 2) : Owns g tbl .root g.root
  | leaf {t : Nat} (h : t < g.fan) : Owns g tbl (.leaf t) (tbl.leaf t)
  | bucket {c : Nat × Nat} (hc : g.In c) (h : tbl.bid c ≠ 0) : Owns g tbl (.bucket c) (tbl.bid c)
  | key {c : Nat × Nat} {p : Pair} (hc : g.In c) (hp : p ∈ tbl.pairs c) (h : p.kid ≠ 0) :
      Owns g tbl (.key p.key) p.kid
  | val {c : Nat × Nat} {p : Pair} (hc : g.In c) (hp : p ∈ tbl.pairs c) (h : p.vid ≠ 0) :
      Owns g tbl (.val p.key) p.vid

-- The blobs hold the table.
structure Stored (cfg : KvCfg) (g : Shape) (tbl : Table) (b : Blobs) (top : Nat) : Prop where
  shape : g.Ok cfg
  one_level : g.depth = 1 → tbl.leaf 0 = g.root
  top_dir : g.depth = 2 → b g.root = some (dirImage kvhashDirMagic g.version 2 g.fan tbl.leaf)
  leaf_dir : ∀ t < g.fan, b (tbl.leaf t) =
    some (dirImage kvhashDirMagic g.version 1 g.n fun i => tbl.bid (t, i))
  bucket : ∀ c, g.In c → tbl.bid c ≠ 0 → b (tbl.bid c) = some (bktImage cfg (tbl.pairs c))
  small : ∀ c, g.In c → bktSize (tbl.pairs c) ≤ cfg.maxPayload
  empty : ∀ c, g.In c → tbl.bid c = 0 → tbl.pairs c = []
  sound : ∀ c, g.In c → ∀ p ∈ tbl.pairs c, p.Sound b
  placed : ∀ c, g.In c → ∀ p ∈ tbl.pairs c, g.place cfg p.key = c
  distinct : ∀ c, g.In c → ((tbl.pairs c).map Pair.key).Nodup
  owner : ∃ owner : Nat → Option Role, ∀ r id, tbl.Owns g r id → owner id = some r
  ids : ∀ r id, tbl.Owns g r id → 0 < id ∧ id ≤ top
  top_lt : top < 2 ^ 64

variable {cfg : KvCfg} {g : Shape} {tbl : Table} {b b' : Blobs} {top top' : Nat}

theorem Shape.Ok.fan_pos (h : g.Ok cfg) : 0 < g.fan := by
  rcases h.levels with ⟨_, h⟩ | ⟨_, h, _⟩ <;> omega

theorem Shape.Ok.place_in (h : g.Ok cfg) (key : List UInt8) : g.In (g.place cfg key) := by
  have hn := h.n_ge
  have hfan := h.fan_pos
  constructor
  . rw [Shape.place]
    split
    . exact hfan
    . exact Nat.mod_lt _ hfan
  . exact Nat.mod_lt _ (by omega)

/-! Looking up a key -/

theorem lookup_iff {ps : List Pair} (h : (ps.map Pair.key).Nodup) {k v : List UInt8} :
    lookup ps k = some v ↔ ∃ p ∈ ps, p.key = k ∧ p.val = v := by
  induction ps with
  | nil => simp [lookup]
  | cons q ps ih =>
    rw [List.map_cons, List.nodup_cons] at h
    by_cases hq : q.key = k
    . have hrest : ∀ p ∈ ps, p.key ≠ k := by
        intro p hp he
        exact h.1 (List.mem_map.mpr ⟨p, hp, he.trans hq.symm⟩)
      rw [lookup, List.find?_cons_of_pos (by simpa using hq)]
      constructor
      . intro hv
        exact ⟨q, by simp, hq, by simpa using hv⟩
      . rintro ⟨p, hp, hk, hv⟩
        rcases List.mem_cons.mp hp with rfl | hp
        . rw [← hv]
          rfl
        . exact absurd hk (hrest p hp)
    . have hskip : lookup (q :: ps) k = lookup ps k := by
        rw [lookup, List.find?_cons_of_neg (by simpa using hq), lookup]
      rw [hskip, ih h.2]
      constructor
      . rintro ⟨p, hp, hkv⟩
        exact ⟨p, by simp [hp], hkv⟩
      . rintro ⟨p, hp, hk, hv⟩
        rcases List.mem_cons.mp hp with rfl | hp
        . exact absurd hk hq
        . exact ⟨p, hp, hk, hv⟩

theorem lookup_none {ps : List Pair} {k : List UInt8} :
    lookup ps k = none ↔ ∀ p ∈ ps, p.key ≠ k := by
  simp [lookup]

theorem Table.map_none {k : List UInt8} :
    tbl.map cfg g k = none ↔ ∀ p ∈ tbl.pairs (g.place cfg k), p.key ≠ k :=
  lookup_none

theorem eq_of_key {ps : List Pair} (h : (ps.map Pair.key).Nodup) {p q : Pair} (hp : p ∈ ps)
    (hq : q ∈ ps) (hk : p.key = q.key) : p = q :=
  List.inj_on_of_nodup_map h hp hq hk

namespace Stored

variable (h : Stored cfg g tbl b top)

include h

theorem leafOk : DirOk cfg.toStoreCfg kvhashDirMagic g.version 1 g.n :=
  ⟨.inl rfl, h.shape.version_ge, h.shape.version_le, .inl rfl, h.shape.n_ge, h.shape.n_fits,
    cfg.payload_le⟩

theorem topOk (hd : g.depth = 2) : DirOk cfg.toStoreCfg kvhashDirMagic g.version 2 g.fan := by
  rcases h.shape.levels with ⟨h1, _⟩ | ⟨_, hge, hfits⟩
  . omega
  . exact ⟨.inl rfl, h.shape.version_ge, h.shape.version_le, .inr rfl, hge, hfits, cfg.payload_le⟩

theorem id_lt {r : Role} {id : Nat} (ho : tbl.Owns g r id) : id < 2 ^ 64 := by
  have h1 := h.ids r id ho
  have h2 := h.top_lt
  omega

theorem leaf_lt {t : Nat} (ht : t < g.fan) : tbl.leaf t < 2 ^ 64 := h.id_lt (.leaf ht)

theorem leaf_pos {t : Nat} (ht : t < g.fan) : tbl.leaf t ≠ 0 := by
  have := h.ids _ _ (.leaf ht)
  omega

theorem bid_lt {c : Nat × Nat} (hc : g.In c) : tbl.bid c < 2 ^ 64 := by
  by_cases hb : tbl.bid c = 0
  . omega
  . exact h.id_lt (.bucket hc hb)

theorem role_unique {r r' : Role} {id : Nat} (ho : tbl.Owns g r id) (ho' : tbl.Owns g r' id) :
    r = r' := by
  obtain ⟨owner, howner⟩ := h.owner
  have h1 := howner r id ho
  have h2 := howner r' id ho'
  rw [h1] at h2
  exact Option.some.inj h2

theorem pairs_of_owns_key {k : List UInt8} {id : Nat} (ho : tbl.Owns g (.key k) id) :
    ∃ p ∈ tbl.pairs (g.place cfg k), p.key = k ∧ p.kid = id := by
  cases ho with
  | @key c p hc hp hk => exact ⟨p, h.placed c hc p hp ▸ hp, rfl, rfl⟩

theorem pairs_of_owns_val {k : List UInt8} {id : Nat} (ho : tbl.Owns g (.val k) id) :
    ∃ p ∈ tbl.pairs (g.place cfg k), p.key = k ∧ p.vid = id := by
  cases ho with
  | @val c p hc hp hk => exact ⟨p, h.placed c hc p hp ▸ hp, rfl, rfl⟩

theorem map_iff {k v : List UInt8} :
    tbl.map cfg g k = some v ↔ ∃ p ∈ tbl.pairs (g.place cfg k), p.key = k ∧ p.val = v :=
  lookup_iff (h.distinct _ (h.shape.place_in k))

-- No key is longer than its field.
theorem map_long {k : List UInt8} (hk : entLenMask < k.length) : tbl.map cfg g k = none := by
  rw [Table.map_none]
  rintro p hp rfl
  have := (h.sound _ (h.shape.place_in p.key) p hp).key_lt
  simp only [entLenMask] at hk
  omega

-- Only the blobs of the map matter, and that there are ids enough.
theorem congr (hb : ∀ r id, tbl.Owns g r id → b' id = b id) (htop : top ≤ top')
    (hlt : top' < 2 ^ 64) : Stored cfg g tbl b' top' where
  shape := h.shape
  one_level := h.one_level
  top_dir hd := by rw [hb _ _ (.root hd), h.top_dir hd]
  leaf_dir t ht := by rw [hb _ _ (.leaf ht), h.leaf_dir t ht]
  bucket c hc hbid := by rw [hb _ _ (.bucket hc hbid), h.bucket c hc hbid]
  small := h.small
  empty := h.empty
  sound c hc p hp :=
    have hp' := h.sound c hc p hp
    { hp' with
      key_live := fun hk => by rw [hb _ _ (.key hc hp hk), hp'.key_live hk]
      val_live := fun hv => by rw [hb _ _ (.val hc hp hv), hp'.val_live hv] }
  placed := h.placed
  distinct := h.distinct
  owner := h.owner
  ids r id ho := ⟨(h.ids r id ho).1, (h.ids r id ho).2.trans htop⟩
  top_lt := hlt

end Stored

/-! Another bucket in a cell -/

section Put

variable {c : Nat × Nat} {bid : Nat} {ps : List Pair}

@[simp]
theorem put_bid_self : (tbl.put c bid ps).bid c = bid := Function.update_self _ _ _

@[simp]
theorem put_pairs_self : (tbl.put c bid ps).pairs c = ps := Function.update_self _ _ _

theorem put_bid_ne {d : Nat × Nat} (h : d ≠ c) : (tbl.put c bid ps).bid d = tbl.bid d :=
  Function.update_of_ne h _ _

theorem put_pairs_ne {d : Nat × Nat} (h : d ≠ c) : (tbl.put c bid ps).pairs d = tbl.pairs d :=
  Function.update_of_ne h _ _

@[simp]
theorem put_leaf : (tbl.put c bid ps).leaf = tbl.leaf := rfl

-- A role of the new table is one of the old table, or one that the cell has given anew.
theorem put_owns {r : Role} {id : Nat} (ho : (tbl.put c bid ps).Owns g r id) :
    tbl.Owns g r id ∨ (r = .bucket c ∧ id = bid) ∨
      (∃ p ∈ ps, p.kid ≠ 0 ∧ r = .key p.key ∧ id = p.kid) ∨
      ∃ p ∈ ps, p.vid ≠ 0 ∧ r = .val p.key ∧ id = p.vid := by
  cases ho with
  | root hd => exact .inl (.root hd)
  | leaf ht => exact .inl (.leaf ht)
  | @bucket d hd hbid =>
    by_cases he : d = c
    . subst he
      exact .inr (.inl ⟨rfl, by simp⟩)
    . rw [put_bid_ne he] at hbid ⊢
      exact .inl (.bucket hd hbid)
  | @key d p hd hp hk =>
    by_cases he : d = c
    . subst he
      exact .inr (.inr (.inl ⟨p, by simpa using hp, hk, rfl, rfl⟩))
    . rw [put_pairs_ne he] at hp
      exact .inl (.key hd hp hk)
  | @val d p hd hp hv =>
    by_cases he : d = c
    . subst he
      exact .inr (.inr (.inr ⟨p, by simpa using hp, hv, rfl, rfl⟩))
    . rw [put_pairs_ne he] at hp
      exact .inl (.val hd hp hv)

-- An id of the old table in the same role, or a new id.
def Kept (g : Shape) (tbl : Table) (top top' : Nat) (fresh : Nat → Option Role) (r : Role) (id : Nat) :
    Prop :=
  tbl.Owns g r id ∨ top < id ∧ id ≤ top' ∧ fresh id = some r

-- What a commit has to bring about.
structure Commit (cfg : KvCfg) (g : Shape) (tbl : Table) (c : Nat × Nat) (bid : Nat) (ps : List Pair)
    (top top' : Nat) (b b' : Blobs) : Prop where
  cell : g.In c
  bid_pos : bid ≠ 0
  leaf_dir : b' (tbl.leaf c.1) =
    some (dirImage kvhashDirMagic g.version 1 g.n fun i => Function.update tbl.bid c bid (c.1, i))
  bucket : b' bid = some (bktImage cfg ps)
  small : bktSize ps ≤ cfg.maxPayload
  sound : ∀ p ∈ ps, p.Sound b'
  placed : ∀ p ∈ ps, g.place cfg p.key = c
  distinct : (ps.map Pair.key).Nodup
  -- what does not belong to the cell stays
  same : ∀ id ≤ top, (∀ r, tbl.Owns g r id → ¬ r.OfCell cfg g c) → b' id = b id
  kept : ∃ fresh : Nat → Option Role, Kept g tbl top top' fresh (.bucket c) bid ∧
    (∀ p ∈ ps, p.kid ≠ 0 → Kept g tbl top top' fresh (.key p.key) p.kid) ∧
    ∀ p ∈ ps, p.vid ≠ 0 → Kept g tbl top top' fresh (.val p.key) p.vid
  top_le : top ≤ top'
  top_lt : top' < 2 ^ 64

theorem Commit.kept_of_owns (hc : Commit cfg g tbl c bid ps top top' b b') :
    ∃ fresh : Nat → Option Role, ∀ r id, (tbl.put c bid ps).Owns g r id →
      Kept g tbl top top' fresh r id := by
  obtain ⟨fresh, hbid, hkey, hval⟩ := hc.kept
  refine ⟨fresh, fun r id ho => ?_⟩
  rcases put_owns ho with ho | ⟨rfl, rfl⟩ | ⟨p, hp, hk, rfl, rfl⟩ | ⟨p, hp, hv, rfl, rfl⟩
  . exact .inl ho
  . exact hbid
  . exact hkey p hp hk
  . exact hval p hp hv

theorem Commit.same_role (hc : Commit cfg g tbl c bid ps top top' b b')
    (h : Stored cfg g tbl b top) {r : Role} {id : Nat} (ho : tbl.Owns g r id)
    (hr : ¬ r.OfCell cfg g c) : b' id = b id :=
  hc.same id (h.ids r id ho).2 fun _ ho' => h.role_unique ho ho' ▸ hr

theorem Stored.put (h : Stored cfg g tbl b top) (hc : Commit cfg g tbl c bid ps top top' b b') :
    Stored cfg g (tbl.put c bid ps) b' top' where
  shape := h.shape
  one_level := h.one_level
  top_dir hd := by
    rw [hc.same_role h (.root hd) id]
    exact h.top_dir hd
  leaf_dir t ht := by
    by_cases he : t = c.1
    . subst he
      exact hc.leaf_dir
    . rw [put_leaf, hc.same_role h (.leaf ht) he, h.leaf_dir t ht]
      congr 1
      apply dirImage_congr
      intro i _
      exact (put_bid_ne fun hcell => he (congrArg Prod.fst hcell)).symm
  bucket d hd hbid := by
    by_cases he : d = c
    . subst he
      simpa using hc.bucket
    . rw [put_bid_ne he] at hbid ⊢
      rw [put_pairs_ne he, hc.same_role h (.bucket hd hbid) he]
      exact h.bucket d hd hbid
  small d hd := by
    by_cases he : d = c
    . subst he
      simpa using hc.small
    . rw [put_pairs_ne he]
      exact h.small d hd
  empty d hd hbid := by
    by_cases he : d = c
    . subst he
      exact absurd (by simpa using hbid) hc.bid_pos
    . rw [put_bid_ne he] at hbid
      rw [put_pairs_ne he]
      exact h.empty d hd hbid
  sound d hd p hp := by
    by_cases he : d = c
    . subst he
      exact hc.sound p (by simpa using hp)
    . rw [put_pairs_ne he] at hp
      have hp' := h.sound d hd p hp
      have hplace : g.place cfg p.key ≠ c := by
        rw [h.placed d hd p hp]
        exact he
      exact { hp' with
        key_live := fun hk => by
          rw [hc.same_role h (.key hd hp hk) hplace]
          exact hp'.key_live hk
        val_live := fun hv => by
          rw [hc.same_role h (.val hd hp hv) hplace]
          exact hp'.val_live hv }
  placed d hd p hp := by
    by_cases he : d = c
    . subst he
      exact hc.placed p (by simpa using hp)
    . rw [put_pairs_ne he] at hp
      exact h.placed d hd p hp
  distinct d hd := by
    by_cases he : d = c
    . subst he
      simpa using hc.distinct
    . rw [put_pairs_ne he]
      exact h.distinct d hd
  owner := by
    obtain ⟨owner, howner⟩ := h.owner
    obtain ⟨fresh, hfresh⟩ := hc.kept_of_owns
    refine ⟨fun id => if id ≤ top then owner id else fresh id, fun r id ho => ?_⟩
    rcases hfresh r id ho with ho | ⟨hnew, _, hrole⟩
    . exact (if_pos (h.ids r id ho).2).trans (howner r id ho)
    . exact (if_neg (Nat.not_le.mpr hnew)).trans hrole
  ids r id ho := by
    obtain ⟨fresh, hfresh⟩ := hc.kept_of_owns
    have hle := hc.top_le
    rcases hfresh r id ho with ho | ⟨hnew, hold, _⟩
    . have := h.ids r id ho
      omega
    . omega
  top_lt := hc.top_lt

theorem put_map (k : List UInt8) :
    (tbl.put c bid ps).map cfg g k =
      if g.place cfg k = c then lookup ps k else tbl.map cfg g k := by
  rw [Table.map]
  split
  . next he => rw [he, put_pairs_self]
  . next he => rw [put_pairs_ne he, Table.map]

-- The cell of a key gets other pairs, but for that key.
theorem Stored.map_put (h : Stored cfg g tbl b top) {key : List UInt8}
    (hdistinct : (ps.map Pair.key).Nodup)
    (hothers : ∀ q, q.key ≠ key → (q ∈ ps ↔ q ∈ tbl.pairs (g.place cfg key))) :
    (tbl.put (g.place cfg key) bid ps).map cfg g =
      Function.update (tbl.map cfg g) key (lookup ps key) := by
  funext k
  rw [put_map]
  by_cases hkey : k = key
  . subst hkey
    rw [if_pos rfl, Function.update_self]
  rw [Function.update_of_ne hkey]
  split
  . next hplace =>
    rw [Table.map, hplace]
    apply Option.ext
    intro v
    rw [lookup_iff hdistinct, lookup_iff (h.distinct _ (h.shape.place_in key))]
    constructor
    . rintro ⟨q, hq, rfl, hv⟩
      exact ⟨q, (hothers q hkey).mp hq, rfl, hv⟩
    . rintro ⟨q, hq, rfl, hv⟩
      exact ⟨q, (hothers q hkey).mpr hq, rfl, hv⟩
  . rfl

end Put

/-! From one table to another -/

-- Blobs that are not the map's stay as they are and do not become the map's.
structure Moves (g : Shape) (tbl : Table) (b : Blobs) (top : Nat) (tbl' : Table) (b' : Blobs)
    (top' : Nat) : Prop where
  top_le : top ≤ top'
  same : ∀ id ≤ top, (∀ r, ¬ tbl.Owns g r id) → b' id = b id
  apart : ∀ id ≤ top, (∀ r, ¬ tbl.Owns g r id) → ∀ r, ¬ tbl'.Owns g r id

theorem Moves.trans {tbl' tbl'' : Table} {b'' : Blobs} {top'' : Nat}
    (h : Moves g tbl b top tbl' b' top') (h' : Moves g tbl' b' top' tbl'' b'' top'') :
    Moves g tbl b top tbl'' b'' top'' where
  top_le := h.top_le.trans h'.top_le
  same id hid ho :=
    (h'.same id (hid.trans h.top_le) (h.apart id hid ho)).trans (h.same id hid ho)
  apart id hid ho := h'.apart id (hid.trans h.top_le) (h.apart id hid ho)

theorem Commit.moves {c : Nat × Nat} {bid : Nat} {ps : List Pair}
    (hc : Commit cfg g tbl c bid ps top top' b b') : Moves g tbl b top (tbl.put c bid ps) b' top' where
  top_le := hc.top_le
  same id hid ho := hc.same id hid fun r hr => absurd hr (ho r)
  apart id hid ho r hr := by
    obtain ⟨fresh, hfresh⟩ := hc.kept_of_owns
    rcases hfresh r id hr with hr | ⟨hnew, _⟩
    . exact ho r hr
    . omega

-- Nothing but new ids has changed.
structure Grown (b : Blobs) (top : Nat) (b' : Blobs) (top' : Nat) : Prop where
  top_le : top ≤ top'
  top_lt : top' < 2 ^ 64
  same : ∀ id ≤ top, b' id = b id

theorem Grown.trans {b'' : Blobs} {top'' : Nat} (h : Grown b top b' top')
    (h' : Grown b' top' b'' top'') : Grown b top b'' top'' where
  top_le := h.top_le.trans h'.top_le
  top_lt := h'.top_lt
  same id hid := (h'.same id (hid.trans h.top_le)).trans (h.same id hid)

theorem Grown.update (h : Grown b top b' top') {id : Nat} (hid : top < id)
    (data : Option (List UInt8)) : Grown b top (Function.update b' id data) top' where
  top_le := h.top_le
  top_lt := h.top_lt
  same i hi := by
    rw [Function.update_of_ne (by omega)]
    exact h.same i hi

theorem Stored.grown (h : Stored cfg g tbl b top) (hg : Grown b top b' top') :
    Stored cfg g tbl b' top' :=
  h.congr (fun r id ho => hg.same id (h.ids r id ho).2) hg.top_le hg.top_lt

theorem Grown.moves (hg : Grown b top b' top') : Moves g tbl b top tbl b' top' :=
  ⟨hg.top_le, fun id hid _ => hg.same id hid, fun _ _ ho => ho⟩

end KeyValueDb.Containers
