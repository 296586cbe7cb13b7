import KeyValueDb.Containers.KvhashOps

/-!
Walking a map: the order of its keys, what next finds in it, and what count counts.
-/

namespace KeyValueDb.Containers

-- The order a map is walked in. Nothing but the key and what create fixed enters it.
def keyCmp (cfg : KvCfg) (g : Shape) : List UInt8 → List UInt8 → Ordering :=
  compareLex (compareOn fun k => (g.place cfg k).1)
    (compareLex (compareOn fun k => (g.place cfg k).2) (bktCmp cfg))

instance (cfg : KvCfg) (g : Shape) : Std.TransCmp (keyCmp cfg g) :=
  inferInstanceAs (Std.TransCmp (compareLex _ _))

instance (cfg : KvCfg) (g : Shape) : Std.LawfulEqCmp (keyCmp cfg g) where
  eq_of_compare h := by
    simp only [keyCmp, compareLex_eq_eq] at h
    exact Std.LawfulEqCmp.eq_of_compare h.2.2

variable {cfg : KvCfg} {H : Hypothesis (World KvRam)} {g : Shape} {tbl : Table} {b : Blobs}
  {top : Nat} {lim : Nat × Nat} {dir bkt : List UInt8}

theorem keyCmp_lt {k l : List UInt8} :
    keyCmp cfg g k l = .lt ↔ (g.place cfg k).1 < (g.place cfg l).1 ∨
      (g.place cfg k).1 = (g.place cfg l).1 ∧ ((g.place cfg k).2 < (g.place cfg l).2 ∨
        (g.place cfg k).2 = (g.place cfg l).2 ∧ bktCmp cfg k l = .lt) := by
  rw [keyCmp, compareLex, compareLex, Ordering.then_eq_lt, Ordering.then_eq_lt]
  simp only [compareOn, Nat.compare_eq_lt, Nat.compare_eq_eq]

theorem keyCmp_irrefl (k : List UInt8) : keyCmp cfg g k k ≠ .lt := by
  have : keyCmp cfg g k k = .eq := Std.ReflCmp.compare_self
  rw [this]
  exact nofun

-- A key of the map in leaf directory `t`, in bucket `i` and after the cursor, or in a later bucket.
structure InLeaf (cfg : KvCfg) (g : Shape) (tbl : Table) (t i : Nat) (c : Option (List UInt8))
    (k : List UInt8) : Prop where
  present : ∃ p ∈ tbl.pairs (g.place cfg k), p.key = k
  leaf : (g.place cfg k).1 = t
  bucket : i ≤ (g.place cfg k).2
  after : (g.place cfg k).2 = i → After cfg c k

-- A key of the map in leaf directory `t`, from that place on, or in a later leaf directory.
structure InTree (cfg : KvCfg) (g : Shape) (tbl : Table) (t i : Nat) (c : Option (List UInt8))
    (k : List UInt8) : Prop where
  present : ∃ p ∈ tbl.pairs (g.place cfg k), p.key = k
  leaf : t ≤ (g.place cfg k).1
  here : (g.place cfg k).1 = t → InLeaf cfg g tbl t i c k

-- No pair of the bucket is after the cursor.
theorem inLeaf_next {t i : Nat} {c : Option (List UInt8)} {k : List UInt8}
    (hnone : ∀ p ∈ tbl.pairs (t, i), ¬ After cfg c p.key) :
    InLeaf cfg g tbl t i c k ↔ InLeaf cfg g tbl t (i + 1) none k := by
  constructor
  . intro hk
    refine ⟨hk.present, hk.leaf, ?_, fun _ => nofun⟩
    rcases Nat.lt_or_eq_of_le hk.bucket with hlt | heq
    . exact hlt
    . obtain ⟨p, hp, hpk⟩ := hk.present
      have hcell : g.place cfg k = (t, i) := Prod.ext hk.leaf heq.symm
      rw [hcell] at hp
      exact absurd (hpk ▸ hk.after heq.symm) (hnone p hp)
  . intro hk
    have := hk.bucket
    exact ⟨hk.present, hk.leaf, by omega, fun he => by omega⟩

-- Every key of the leaf directory is before the place.
theorem inTree_next {t i : Nat} {c : Option (List UInt8)} {k : List UInt8}
    (hnone : ∀ k, ¬ InLeaf cfg g tbl t i c k) :
    InTree cfg g tbl t i c k ↔ InTree cfg g tbl (t + 1) 0 none k := by
  constructor
  . intro hk
    refine ⟨hk.present, ?_, fun he => ⟨hk.present, he, Nat.zero_le _, fun _ => nofun⟩⟩
    rcases Nat.lt_or_eq_of_le hk.leaf with hlt | heq
    . exact hlt
    . exact absurd (hk.here heq.symm) (hnone k)
  . intro hk
    have := hk.leaf
    exact ⟨hk.present, by omega, fun he => by omega⟩

-- The first of a bucket is the first of its leaf directory from there on.
theorem LeastOf.inLeaf {t i : Nat} {c : Option (List UInt8)} {p : Pair} (h : Stored cfg g tbl b top)
    (hc : g.In (t, i)) (hp : p ∈ tbl.pairs (t, i))
    (hl : LeastOf (bktCmp cfg) (Candidate cfg c none (tbl.pairs (t, i))) p.key) :
    LeastOf (keyCmp cfg g) (InLeaf cfg g tbl t i c) p.key := by
  have hplace := h.placed _ hc p hp
  constructor
  . refine ⟨⟨p, ?_, rfl⟩, ?_, ?_, fun _ => hl.1.1⟩
    . rw [hplace]
      exact hp
    . rw [hplace]
    . rw [hplace]
  . intro q hq hlt
    rw [keyCmp_lt, hplace] at hlt
    have h1 := hq.leaf
    have h2 := hq.bucket
    rcases hlt with hlt | ⟨_, hlt | ⟨heq, hlt⟩⟩
    . simp only at hlt
      omega
    . simp only at hlt
      omega
    . obtain ⟨r, hr, hrk⟩ := hq.present
      have hcell : g.place cfg q = (t, i) := Prod.ext h1 heq
      rw [hcell] at hr
      exact hl.2 q ⟨hq.after heq, .inr ⟨r, hr, hrk⟩⟩ hlt

-- The first of a leaf directory is the first of the map from there on.
theorem LeastOf.inTree {t i : Nat} {c : Option (List UInt8)} {k : List UInt8}
    (hl : LeastOf (keyCmp cfg g) (InLeaf cfg g tbl t i c) k) :
    LeastOf (keyCmp cfg g) (InTree cfg g tbl t i c) k := by
  have hk := hl.1
  constructor
  . refine ⟨hk.present, ?_, fun _ => hk⟩
    rw [hk.leaf]
  . intro q hq hlt
    rcases Nat.lt_or_eq_of_le hq.leaf with hlater | heq
    . rw [keyCmp_lt, hk.leaf] at hlt
      omega
    . exact hl.2 q (hq.here heq.symm) hlt

-- What a search leaves: the bucket of the key it has found, and where its pair begins there.
def walkPost (cfg : KvCfg) (g : Shape) (tbl : Table) (b : Blobs) (top : Nat) (lim : Nat × Nat)
    (dir : List UInt8) (A : List UInt8 → Prop) : Post (World KvRam) Errno Nat where
  ok off s := ∃ p, LeastOf (keyCmp cfg g) A p.key ∧ Begins (tbl.pairs (g.place cfg p.key)) off p ∧
    Sees b top lim [] (bktImage cfg (tbl.pairs (g.place cfg p.key))) s
  err e s :=
    e = Errno.ENODATA ∧ (∀ k, ¬ A k) ∧ Sees b top lim dir [] s ∨
      Sees b top lim [] [] s ∧ Failing e s
  cut _ := False

theorem walkPost_congr {A A' : List UInt8 → Prop} {x : K Nat} {P : World KvRam → Prop}
    (h : Spec H P x (walkPost cfg g tbl b top lim dir A)) (hA : ∀ k, A' k ↔ A k) :
    Spec H P x (walkPost cfg g tbl b top lim dir A') := by
  have : A' = A := funext fun k => propext (hA k)
  rwa [this]

section Reads

variable (hH : ∀ w, H.holds w → telling.holds w)

include hH

theorem leafFirstAfter_spec (h : Stored cfg g tbl b top) {t : Nat} (ht : t < g.fan) {k i : Nat}
    (hk : i + k = g.n) {c : Option (List UInt8)} {cursor : Option Okey}
    (hc : CursorIs cfg b c cursor) :
    Spec H (Sees b top lim (tbl.leafImage g t) bkt) (leafFirstAfter cfg k i cursor)
      (walkPost cfg g tbl b top lim (tbl.leafImage g t) (InLeaf cfg g tbl t i c)) := by
  induction k generalizing i c cursor bkt with
  | zero =>
    refine Spec.fail fun s hs => .inl ⟨rfl, ?_, hs.weaken List.prefix_rfl List.nil_prefix⟩
    intro k hk'
    have h1 := hk'.bucket
    have h2 := (h.shape.place_in k).2
    omega
  | succ k ih =>
    have hin : g.In (t, i) := ⟨ht, by simp only; omega⟩
    have hidx : i + 1 + k = g.n := by omega
    rw [leafFirstAfter]
    refine Spec.dirBuf ?_
    rintro _ ⟨rest, rfl⟩
    rw [Table.leafImage, dirChild_image hin.2 (h.bid_lt hin), ← Table.leafImage]
    refine Spec.ite (fun h0 => ?_) fun h0 => ?_
    . refine walkPost_congr (ih hidx CursorIs.none) fun k => inLeaf_next ?_
      simp [h.empty _ hin h0]
    have hsmall : (bktImage cfg (tbl.pairs (t, i))).length ≤ cfg.maxPayload := by
      rw [bktImage_length]
      exact h.small _ hin
    refine Spec.reads (getBkt_spec hH (h.bucket _ hin h0) hsmall) ?_ fun e s hs he => .inr ⟨hs, he⟩
    rintro _ rfl
    refine Spec.bktBuf fun buf hbuf => ?_
    rw [bktImage_length]
    refine (bktFirstAfter_spec hH hc (h.sound _ hin) hbuf).attempt.bind ?_ (fun _ _ hf => hf.elim)
      fun _ hf => hf
    rintro (e | off)
    . refine Spec.ite (fun he => ?_) fun he => ?_
      . refine Spec.pre (P := fun s => (∀ k, ¬ Candidate cfg c none (tbl.pairs (t, i)) k) ∧
          Sees b top lim (tbl.leafImage g t) (bktImage cfg (tbl.pairs (t, i))) s)
          (Spec.fact fun hnone => ?_) ?_
        . refine walkPost_congr (ih hidx CursorIs.none) fun k => inLeaf_next fun p hp hafter => ?_
          exact hnone p.key ⟨hafter, .inr ⟨p, hp, rfl⟩⟩
        . rintro s (⟨_, hnone, hs⟩ | ⟨_, hf⟩)
          . exact ⟨hnone, hs⟩
          . exact absurd he hf.nodata
      . refine Spec.fail fun s hs => ?_
        rcases hs with ⟨hno, _⟩ | hs
        . exact absurd hno he
        . exact .inr hs
    . refine Spec.ret fun s hs => ?_
      obtain ⟨⟨p, hp, hl⟩, hs⟩ := hs
      refine ⟨p, LeastOf.inLeaf h hin hp.mem hl, ?_⟩
      rw [h.placed _ hin p hp.mem]
      exact ⟨hp, hs.weaken List.nil_prefix List.prefix_rfl⟩

theorem subLoad_spec (h : Stored cfg g tbl b top) {t : Nat} (ht : t < g.fan) :
    Spec H (Sees b top lim dir bkt) (subLoad cfg (tbl.leaf t))
      (readPost b top lim (tbl.leafImage g t) bkt (· = g.n)) := by
  rw [subLoad, if_neg (h.leaf_pos ht)]
  refine Spec.reads (dirLoad_spec hH h.leafOk (h.leaf_dir t ht)) ?_ fun e s hs he => ⟨hs, he⟩
  rintro _ rfl
  exact Spec.ret fun s hs => ⟨rfl, hs⟩

theorem topChild_spec (h : Stored cfg g tbl b top) (hd : g.depth = 2) {t : Nat} (ht : t < g.fan) :
    Spec H (Sees b top lim dir bkt) (topChild cfg g.root t)
      (readPost b top lim [] bkt (· = tbl.leaf t)) := by
  refine Spec.reads (dirLoad_spec hH (h.topOk hd) (h.top_dir hd)) ?_ fun e s hs he => ⟨hs, he⟩
  rintro _ rfl
  refine Spec.ite (fun hle => absurd ht (by simpa using hle)) fun _ => ?_
  refine Spec.dirBuf ?_
  rintro _ ⟨rest, rfl⟩
  rw [dirChild_image ht (h.leaf_lt ht)]
  exact Spec.ret fun s hs => ⟨rfl, hs.weaken List.nil_prefix List.prefix_rfl⟩

theorem subFirstAfter_spec (h : Stored cfg g tbl b top) {t : Nat} (ht : t < g.fan)
    {c : Option (List UInt8)} {cursor : Option (Okey × UInt32)}
    (hc : CursorIs cfg b c (cursor.map Prod.fst)) (hi : startIdx idxSub cursor g.n ≤ g.n) :
    Spec H (Sees b top lim dir bkt) (subFirstAfter cfg (tbl.leaf t) cursor)
      (walkPost cfg g tbl b top lim (tbl.leafImage g t)
        (InLeaf cfg g tbl t (startIdx idxSub cursor g.n) c)) := by
  refine Spec.reads (subLoad_spec hH h ht) ?_ fun e s hs he => .inr ⟨hs, he⟩
  rintro _ rfl
  exact leafFirstAfter_spec hH h ht (by omega) hc

theorem treeFirstAfter_spec (h : Stored cfg g tbl b top) (hd : g.depth = 2) {k t : Nat}
    (hk : t + k + 1 = g.fan) {c : Option (List UInt8)} {cursor : Option (Okey × UInt32)}
    (hc : CursorIs cfg b c (cursor.map Prod.fst)) (hi : startIdx idxSub cursor g.n ≤ g.n) :
    Spec H (Sees b top lim dir bkt) (treeFirstAfter cfg g.root k t (tbl.leaf t) cursor)
      (walkPost cfg g tbl b top lim [] (InTree cfg g tbl t (startIdx idxSub cursor g.n) c)) := by
  induction k generalizing t c cursor dir bkt with
  | zero =>
    refine (subFirstAfter_spec hH h (by omega) hc hi).conseq (fun _ hs => hs) ?_ ?_ fun _ hf => hf
    . rintro off s ⟨p, hl, hp⟩
      exact ⟨p, LeastOf.inTree hl, hp⟩
    . rintro e s (⟨he, hnone, hs⟩ | hs)
      . refine .inl ⟨he, fun k hk' => ?_, hs.idle⟩
        -- this leaf directory is the last one
        have h1 := ((inTree_next hnone).mp hk').leaf
        have h2 := (h.shape.place_in k).1
        omega
      . exact .inr hs
  | succ k ih =>
    have hnext : t + 1 + k + 1 = g.fan := by omega
    rw [treeFirstAfter]
    refine (subFirstAfter_spec hH h (by omega) hc hi).attempt.bind ?_ (fun _ _ hf => hf.elim)
      fun _ hf => hf
    rintro (e | off)
    . refine Spec.ite (fun he => ?_) fun he => ?_
      . refine Spec.pre (P := fun s => (∀ k, ¬ InLeaf cfg g tbl t (startIdx idxSub cursor g.n) c k) ∧
          Sees b top lim (tbl.leafImage g t) [] s) (Spec.fact fun hnone => ?_) ?_
        . refine Spec.reads (topChild_spec hH h hd (by omega)) ?_ fun e s hs he => .inr ⟨hs, he⟩
          rintro _ rfl
          refine walkPost_congr ?_ fun k => inTree_next hnone
          exact ih hnext CursorIs.none (Nat.zero_le _)
        . rintro s (⟨_, hnone, hs⟩ | ⟨_, hf⟩)
          . exact ⟨hnone, hs⟩
          . exact absurd he hf.nodata
      . refine Spec.fail fun s hs => ?_
        rcases hs with ⟨hno, _⟩ | hs
        . exact absurd hno he
        . exact .inr hs
    . refine Spec.ret fun s hs => ?_
      obtain ⟨p, hl, hp⟩ := hs
      exact ⟨p, LeastOf.inTree hl, hp⟩

-- What a caller is told of an entry.
def successor (koutSz voutSz : Nat) (key val : List UInt8) : Successor :=
  if koutSz < key.length ∨ voutSz < val.length then .tooSmall key.length val.length
  else .entry key val

theorem nextEntry_spec (h : Stored cfg g tbl b top) {p : Pair} {off : Nat}
    (hp : Begins (tbl.pairs (g.place cfg p.key)) off p) (koutSz voutSz : Nat) :
    Spec H (Sees b top lim dir (bktImage cfg (tbl.pairs (g.place cfg p.key))))
      (nextEntry cfg off koutSz voutSz)
      (readPost b top lim [] [] (· = successor koutSz voutSz p.key p.val)) := by
  have hin := h.shape.place_in p.key
  have hsound := h.sound _ hin p hp.mem
  refine Spec.bktBuf fun buf hbuf => ?_
  have hshow := hp.shows hbuf
  have hentry : bktEntry buf (cfg.sizeMod - 1) off = some (p.ent off) := by
    have hsmall := h.small _ hin
    obtain ⟨pre, post, hps, hoff⟩ := hp
    rw [hps, bktSize_append, bktSize_cons] at hsmall
    have hmax := cfg.payload_le
    have hsz := cfg.size_ge
    have hge := p.size_ge
    simp only [entLenMask] at hmax
    have hlen : (p.ent off).len = p.size := rfl
    rw [bktEntry, hshow.entAt_eq hsound.toFits, if_neg (by omega), if_pos (by omega)]
  rw [hentry]
  refine Spec.ite (fun hsz => ?_) fun hsz => ?_
  . exact Spec.ret fun s hs => ⟨(if_pos hsz).symm, hs.idle⟩
  have hfail : ∀ e s, Sees b top lim [] [] s → Failing e s →
      (readPost b top lim [] [] (· = successor koutSz voutSz p.key p.val)).err e s :=
    fun e s hs he => ⟨hs, he⟩
  refine Spec.reads (keyChunk_spec hH (hshow.keySrc hsound) (by simp [Pair.ent])) ?_ hfail
  rintro _ rfl
  refine Spec.reads (entValue_spec hH hshow hsound voutSz) ?_ hfail
  rintro _ rfl
  have hval : fetched voutSz p.val = .value p.val := if_neg fun hlt => hsz (.inr hlt)
  have hkey : (p.key.drop 0).take (p.ent off).kl = p.key := by simp [Pair.ent]
  rw [hval, hkey]
  exact Spec.ret fun s hs => ⟨(if_neg hsz).symm, hs.idle⟩

/-! The next key -/

-- A cursor as a call takes it, and as the key it is.
def cursorOf (cfg : KvCfg) (key : List UInt8) : Option (Okey × UInt32) :=
  if key.length = 0 then none
  else some (⟨key.length, hashFp cfg (cfg.hash key), .ram key⟩, cfg.hash key)

def cursorKey (key : List UInt8) : Option (List UInt8) :=
  if key.length = 0 then none else some key

-- Where a walk begins.
def Shape.start (cfg : KvCfg) (g : Shape) (cursor : List UInt8) : Nat × Nat :=
  if cursor.length = 0 then (0, 0) else g.place cfg cursor

-- The keys after the cursor.
def Above (cmp : List UInt8 → List UInt8 → Ordering) (m : KvMap) (cursor key : List UInt8) : Prop :=
  m key ≠ none ∧ (cursor ≠ [] → cmp cursor key = .lt)

omit hH

theorem cursorIs (cursor : List UInt8) :
    CursorIs cfg b (cursorKey cursor) ((cursorOf cfg cursor).map Prod.fst) := by
  rw [cursorKey, cursorOf]
  split
  . exact .none
  . exact .some ⟨rfl, rfl, List.prefix_rfl⟩

theorem start_in (h : g.Ok cfg) (cursor : List UInt8) : g.In (g.start cfg cursor) := by
  rw [Shape.start]
  split
  . have := h.n_ge
    exact ⟨h.fan_pos, by simp only; omega⟩
  . exact h.place_in cursor

theorem startIdx_sub (cursor : List UInt8) :
    startIdx idxSub (cursorOf cfg cursor) g.n = (g.start cfg cursor).2 := by
  rw [Shape.start, cursorOf]
  split <;> rfl

theorem startIdx_top (hd : g.depth = 2) (cursor : List UInt8) :
    startIdx idxTop (cursorOf cfg cursor) g.fan = (g.start cfg cursor).1 := by
  rw [Shape.start, cursorOf]
  split
  . rfl
  . exact (if_neg (by omega)).symm

theorem start_one (hd : g.depth = 1) (cursor : List UInt8) : (g.start cfg cursor).1 = 0 := by
  rw [Shape.start]
  split
  . rfl
  . exact if_pos hd

theorem present_iff {k : List UInt8} :
    tbl.map cfg g k ≠ none ↔ ∃ p ∈ tbl.pairs (g.place cfg k), p.key = k := by
  rw [ne_eq, Table.map_none]
  push Not
  rfl

-- Without a cursor a walk begins with the first bucket, with one at the cursor's.
theorem above_iff (cursor k : List UInt8) :
    Above (keyCmp cfg g) (tbl.map cfg g) cursor k ↔
      InTree cfg g tbl (g.start cfg cursor).1 (g.start cfg cursor).2 (cursorKey cursor) k := by
  rw [Above, present_iff]
  cases cursor with
  | nil =>
    constructor
    . intro hk
      exact ⟨hk.1, Nat.zero_le _, fun he => ⟨hk.1, he, Nat.zero_le _, fun _ => nofun⟩⟩
    . intro hk
      exact ⟨hk.present, fun hne => absurd rfl hne⟩
  | cons x xs =>
    show _ ↔ InTree cfg g tbl (g.place cfg (x :: xs)).1 (g.place cfg (x :: xs)).2
      (some (x :: xs)) k
    generalize hcur : x :: xs = cursor
    have hne : cursor ≠ [] := by
      rw [← hcur]
      exact List.cons_ne_nil x xs
    constructor
    . rintro ⟨hk, hlt⟩
      have hlt := keyCmp_lt.mp (hlt hne)
      refine ⟨hk, by omega, fun he => ⟨hk, he, by omega, fun he' y hy => ?_⟩⟩
      obtain rfl : cursor = y := Option.some.inj hy
      rcases hlt with hlt | ⟨_, hlt | ⟨_, hlt⟩⟩
      . omega
      . omega
      . exact hlt
    . intro hk
      refine ⟨hk.present, fun _ => keyCmp_lt.mpr ?_⟩
      rcases Nat.lt_or_eq_of_le hk.leaf with hlt | heq
      . exact .inl hlt
      . have hleaf := hk.here heq.symm
        rcases Nat.lt_or_eq_of_le hleaf.bucket with hlt | heq'
        . exact .inr ⟨heq, .inl hlt⟩
        . exact .inr ⟨heq, .inr ⟨heq', hleaf.after heq'.symm cursor rfl⟩⟩

-- In one level the only leaf directory is the whole map.
theorem above_one_level (hd : g.depth = 1) (cursor k : List UInt8) :
    Above (keyCmp cfg g) (tbl.map cfg g) cursor k ↔
      InLeaf cfg g tbl 0 (g.start cfg cursor).2 (cursorKey cursor) k := by
  rw [above_iff, start_one hd]
  constructor
  . intro hk
    exact hk.here (if_pos hd)
  . intro hk
    exact ⟨hk.present, Nat.zero_le _, fun _ => hk⟩

include hH

-- The search in one level, and in two.
theorem firstAbove_leaf (h : Stored cfg g tbl b top) (hd : g.depth = 1) (cursor : List UInt8) :
    Spec H (Sees b top lim (tbl.leafImage g 0) bkt)
      (leafFirstAfter cfg (g.n - startIdx idxSub (cursorOf cfg cursor) g.n)
        (startIdx idxSub (cursorOf cfg cursor) g.n) ((cursorOf cfg cursor).map Prod.fst))
      (walkPost cfg g tbl b top lim (tbl.leafImage g 0) (Above (keyCmp cfg g) (tbl.map cfg g) cursor)) := by
  have hin := start_in h.shape cursor
  rw [startIdx_sub]
  refine walkPost_congr ?_ (above_one_level hd cursor)
  refine leafFirstAfter_spec hH h h.shape.fan_pos ?_ (cursorIs cursor)
  have := hin.2
  omega

theorem firstAbove_tree (h : Stored cfg g tbl b top) (hd : g.depth = 2) (cursor : List UInt8)
    {sub : Nat} (hsub : sub = tbl.leaf (startIdx idxTop (cursorOf cfg cursor) g.fan)) :
    Spec H (Sees b top lim dir bkt)
      (treeFirstAfter cfg g.root (g.fan - 1 - startIdx idxTop (cursorOf cfg cursor) g.fan)
        (startIdx idxTop (cursorOf cfg cursor) g.fan) sub (cursorOf cfg cursor))
      (walkPost cfg g tbl b top lim [] (Above (keyCmp cfg g) (tbl.map cfg g) cursor)) := by
  have hin := start_in h.shape cursor
  rw [hsub, startIdx_top hd]
  refine walkPost_congr ?_ (above_iff cursor)
  rw [← startIdx_sub]
  refine treeFirstAfter_spec hH h hd ?_ (cursorIs cursor) ?_
  . have := hin.1
    omega
  . rw [startIdx_sub]
    exact hin.2.le

theorem foundEntry_spec (h : Stored cfg g tbl b top) {x : K Nat} {P : World KvRam → Prop}
    {dir' : List UInt8} {A : List UInt8 → Prop} {bad : Prop}
    (hx : Spec H P x (walkPost cfg g tbl b top lim dir' A)) (koutSz voutSz : Nat) :
    Spec H P (x >>= fun off => nextEntry cfg off koutSz voutSz)
      (answerPost b top lim
        (fun x => ∃ k v, LeastOf (keyCmp cfg g) A k ∧ tbl.map cfg g k = some v ∧
          x = successor koutSz voutSz k v)
        (fun e => e = Errno.ENODATA ∧ ∀ k, ¬ A k) bad) := by
  refine hx.bind ?_ ?_ fun _ hf => hf
  . intro off
    refine Spec.given fun p => Spec.fact fun hl => Spec.fact fun hp => ?_
    refine (nextEntry_spec hH h hp koutSz voutSz).conseq (fun _ hs => hs) ?_ ?_ fun _ hf => hf
    . rintro x s ⟨rfl, hs⟩
      exact ⟨⟨p.key, p.val, hl, h.map_iff.mpr ⟨p, hp.mem, rfl, rfl⟩, rfl⟩, hs⟩
    . rintro e s ⟨hs, he⟩
      exact ⟨hs, .inr (.inl he)⟩
  . rintro e s (⟨he, hnone, hs⟩ | ⟨hs, he⟩)
    . exact ⟨hs.idle, .inl ⟨he, hnone⟩⟩
    . exact ⟨hs, .inr (.inl he)⟩

theorem kvhashNext_spec (h : Stored cfg g tbl b top) (cursor : List UInt8) (koutSz voutSz : Nat) :
    Spec H (Sees b top lim dir bkt) (kvhashNext cfg g.root cursor koutSz voutSz)
      (answerPost b top lim
        (fun x => ∃ k v, LeastOf (keyCmp cfg g) (Above (keyCmp cfg g) (tbl.map cfg g) cursor) k ∧
          tbl.map cfg g k = some v ∧ x = successor koutSz voutSz k v)
        (fun e => e = Errno.ENODATA ∧ ∀ k, ¬ Above (keyCmp cfg g) (tbl.map cfg g) cursor k)
        (0xffff < cursor.length)) := by
  have hin := start_in h.shape cursor
  rw [kvhashNext]
  refine Spec.ite (fun hbad => ?_) fun _ => ?_
  . exact Spec.fail fun s hs => ⟨hs.idle, .inr (.inr ⟨rfl, hbad⟩)⟩
  rcases h.shape.levels with ⟨hd, hfan⟩ | ⟨hd, hfan, _⟩
  . have hdir := h.leaf_dir 0 (by omega)
    rw [h.one_level hd] at hdir
    refine Spec.reads (dirLoad_spec hH h.leafOk hdir) ?_ fun e s hs he => ⟨hs, .inr (.inl he)⟩
    rintro _ rfl
    exact foundEntry_spec hH h (firstAbove_leaf hH h hd cursor) koutSz voutSz
  . refine Spec.reads (dirLoad_spec hH (h.topOk hd) (h.top_dir hd)) ?_ fun e s hs he =>
      ⟨hs, .inr (.inl he)⟩
    rintro _ rfl
    refine Spec.dirBuf ?_
    rintro _ ⟨rest, rfl⟩
    have hlt : startIdx idxTop (cursorOf cfg cursor) g.fan < g.fan := by
      rw [startIdx_top hd]
      exact hin.1
    exact foundEntry_spec hH h
      (firstAbove_tree hH h hd cursor (dirChild_image hlt (h.leaf_lt hlt))) koutSz voutSz

/-! The number of keys -/

-- The pairs of a leaf directory from bucket `i` on, and of the map from a leaf directory on.
def leafPairs (tbl : Table) (t k i : Nat) : List Pair :=
  (List.range' i k).flatMap fun j => tbl.pairs (t, j)

def treePairs (g : Shape) (tbl : Table) (k t : Nat) : List Pair :=
  (List.range' t k).flatMap fun u => leafPairs tbl u g.n 0

theorem leafCount_spec (h : Stored cfg g tbl b top) {t : Nat} (ht : t < g.fan) {k i : Nat}
    (hk : i + k = g.n) (acc : Nat) :
    Spec H (Sees b top lim (tbl.leafImage g t) bkt) (leafCount cfg k i acc)
      (readPost b top lim (tbl.leafImage g t) [] (· = acc + (leafPairs tbl t k i).length)) := by
  induction k generalizing i acc bkt with
  | zero => exact Spec.ret fun s hs => ⟨rfl, hs.weaken List.prefix_rfl List.nil_prefix⟩
  | succ k ih =>
    have hin : g.In (t, i) := ⟨ht, by simp only; omega⟩
    have hidx : i + 1 + k = g.n := by omega
    have hsum : (leafPairs tbl t (k + 1) i).length =
        (tbl.pairs (t, i)).length + (leafPairs tbl t k (i + 1)).length := by
      rw [leafPairs, List.range'_succ, List.flatMap_cons, List.length_append]
      rfl
    rw [leafCount, hsum, ← Nat.add_assoc]
    refine Spec.dirBuf ?_
    rintro _ ⟨rest, rfl⟩
    rw [Table.leafImage, dirChild_image hin.2 (h.bid_lt hin), ← Table.leafImage]
    refine Spec.ite (fun h0 => ?_) fun h0 => ?_
    . rw [h.empty _ hin h0]
      exact ih hidx acc
    have hsmall : (bktImage cfg (tbl.pairs (t, i))).length ≤ cfg.maxPayload := by
      rw [bktImage_length]
      exact h.small _ hin
    refine Spec.reads (getBkt_spec hH (h.bucket _ hin h0) hsmall) ?_ fun e s hs he => ⟨hs, he⟩
    rintro _ rfl
    refine Spec.bktBuf ?_
    rintro _ ⟨rest, rfl⟩
    rw [bktImage_length, bktEnts_eq (fun p hp => (h.sound _ hin p hp).toFits) rfl, located_length]
    exact ih hidx _

theorem treeCount_spec (h : Stored cfg g tbl b top) (hd : g.depth = 2) {k t : Nat}
    (hk : t + k = g.fan) (acc : Nat) :
    Spec H (Sees b top lim dir bkt) (treeCount cfg g.root k t acc)
      (readPost b top lim [] [] (· = acc + (treePairs g tbl k t).length)) := by
  induction k generalizing t acc dir bkt with
  | zero => exact Spec.ret fun s hs => ⟨rfl, hs.idle⟩
  | succ k ih =>
    have ht : t < g.fan := by omega
    have hsum : (treePairs g tbl (k + 1) t).length =
        (leafPairs tbl t g.n 0).length + (treePairs g tbl k (t + 1)).length := by
      rw [treePairs, List.range'_succ, List.flatMap_cons, List.length_append]
      rfl
    rw [treeCount, hsum, ← Nat.add_assoc]
    refine Spec.reads (topChild_spec hH h hd ht) ?_ fun e s hs he => ⟨hs, he⟩
    rintro _ rfl
    refine Spec.reads (subLoad_spec hH h ht) ?_ fun e s hs he => ⟨hs, he⟩
    rintro _ rfl
    refine Spec.reads (leafCount_spec hH h ht (by omega) acc) ?_ fun e s hs he => ⟨hs, he⟩
    rintro _ rfl
    exact ih (by omega) _

-- `n` is the number of keys of the map.
def Counts (m : KvMap) (n : Nat) : Prop :=
  ∃ keys : List (List UInt8), keys.Nodup ∧ (∀ k, k ∈ keys ↔ m k ≠ none) ∧ keys.length = n

omit hH in
theorem treePairs_eq : treePairs g tbl g.fan 0 =
    (List.product (List.range g.fan) (List.range g.n)).flatMap tbl.pairs := by
  simp only [treePairs, leafPairs, List.product, List.flatMap_assoc, List.flatMap_map,
    List.range_eq_range']

omit hH in
theorem mem_cells {c : Nat × Nat} :
    c ∈ List.product (List.range g.fan) (List.range g.n) ↔ g.In c := by
  rw [List.pair_mem_product, List.mem_range, List.mem_range]
  rfl

omit hH in
theorem mem_treePairs {p : Pair} :
    p ∈ treePairs g tbl g.fan 0 ↔ ∃ c, g.In c ∧ p ∈ tbl.pairs c := by
  simp only [treePairs_eq, List.mem_flatMap, mem_cells]

-- A key is in one place, and once there.
omit hH in
theorem treePairs_keys (h : Stored cfg g tbl b top) :
    ((treePairs g tbl g.fan 0).map Pair.key).Nodup := by
  rw [treePairs_eq, List.map_flatMap, List.nodup_flatMap]
  constructor
  . intro c hc
    exact h.distinct c (mem_cells.mp hc)
  . have hcells : (List.product (List.range g.fan) (List.range g.n)).Nodup :=
      List.nodup_range.product List.nodup_range
    refine hcells.imp_of_mem fun {c d} hc hd hne => ?_
    intro k hk hk'
    obtain ⟨p, hp, rfl⟩ := List.mem_map.mp hk
    obtain ⟨q, hq, hqk⟩ := List.mem_map.mp hk'
    have h1 := h.placed c (mem_cells.mp hc) p hp
    have h2 := h.placed d (mem_cells.mp hd) q hq
    rw [hqk] at h2
    exact hne (h1.symm.trans h2)

omit hH in
theorem counts_pairs (h : Stored cfg g tbl b top) :
    Counts (tbl.map cfg g) (treePairs g tbl g.fan 0).length := by
  refine ⟨(treePairs g tbl g.fan 0).map Pair.key, treePairs_keys h, fun k => ?_, List.length_map _⟩
  rw [present_iff, List.mem_map]
  constructor
  . rintro ⟨p, hp, rfl⟩
    obtain ⟨c, hc, hp⟩ := mem_treePairs.mp hp
    exact ⟨p, (h.placed c hc p hp).symm ▸ hp, rfl⟩
  . rintro ⟨p, hp, rfl⟩
    exact ⟨p, mem_treePairs.mpr ⟨_, h.shape.place_in p.key, hp⟩, rfl⟩

theorem kvhashCount_spec (h : Stored cfg g tbl b top) :
    Spec H (Sees b top lim dir bkt) (kvhashCount cfg g.root)
      (readPost b top lim [] [] (Counts (tbl.map cfg g))) := by
  have hcounts := counts_pairs h
  suffices hsum : Spec H (Sees b top lim dir bkt) (kvhashCount cfg g.root)
      (readPost b top lim [] [] (· = (treePairs g tbl g.fan 0).length)) by
    refine hsum.conseq (fun _ hs => hs) ?_ (fun _ _ he => he) fun _ hf => hf
    rintro _ s ⟨rfl, hs⟩
    exact ⟨hcounts, hs⟩
  rcases h.shape.levels with ⟨hd, hfan⟩ | ⟨hd, hfan, _⟩
  . have hdir := h.leaf_dir 0 (by omega)
    rw [h.one_level hd] at hdir
    refine Spec.reads (dirLoad_spec hH h.leafOk hdir) ?_ fun e s hs he => ⟨hs, he⟩
    rintro _ rfl
    refine (leafCount_spec hH h h.shape.fan_pos (Nat.zero_add _) 0).conseq (fun _ hs => hs) ?_
      (fun _ _ he => he) fun _ hf => hf
    rintro n s ⟨hn, hs⟩
    rw [hfan]
    refine ⟨?_, hs.idle⟩
    simpa [treePairs] using hn
  . refine Spec.reads (dirLoad_spec hH (h.topOk hd) (h.top_dir hd)) ?_ fun e s hs he => ⟨hs, he⟩
    rintro _ rfl
    refine Spec.dirBuf ?_
    rintro _ ⟨rest, rfl⟩
    rw [dirChild_image h.shape.fan_pos (h.leaf_lt h.shape.fan_pos)]
    refine Spec.reads (subLoad_spec hH h h.shape.fan_pos) ?_ fun e s hs he => ⟨hs, he⟩
    rintro _ rfl
    refine Spec.reads (leafCount_spec hH h h.shape.fan_pos (by omega) 0) ?_
      fun e s hs he => ⟨hs, he⟩
    rintro _ rfl
    refine (treeCount_spec hH h hd (k := g.fan - 1) (t := 1) (by omega) _).conseq (fun _ hs => hs) ?_
      (fun _ _ he => he) fun _ hf => hf
    rintro n s ⟨hn, hs⟩
    refine ⟨?_, hs⟩
    obtain ⟨k, hk⟩ : ∃ k, g.fan = k + 1 := ⟨g.fan - 1, by omega⟩
    rw [hn, hk, Nat.add_sub_cancel, treePairs, treePairs, List.range'_succ, List.flatMap_cons,
      List.length_append, Nat.zero_add]

end Reads

end KeyValueDb.Containers
