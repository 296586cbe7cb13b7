import KeyValueDb.Containers.KvhashCalls
import KeyValueDb.Containers.KvhashCreate

/-!
What a map holds, as a reader that meets no failure is told, and as its buckets have it.
-/

namespace KeyValueDb.Containers

variable {cfg : KvCfg} {root : Nat}

/-! A reader that meets no failure -/

def World.still {ρ : Type} (w : World ρ) : World ρ :=
  { w with
    turns := []
    allocs := []
    reads := []
    history := [] }

def lookAt {α : Type} (x : K α) (w : World KvRam) : Out Errno α := (x w.still).1

-- The map that get shows.
def kvSeen (cfg : KvCfg) (root : Nat) (w : World KvRam) : KvMap := fun k =>
  match lookAt (kvhashGet cfg root k entLenMask) w with
  | .ok (.value v) => some v
  | _ => none

variable {g : Shape} {tbl : Table} {m : KvMap} {w : World KvRam}

theorem sees_self (w : World KvRam) :
    Sees w.blobs w.top (w.ram.keyInlineMax, w.ram.valInlineMax) [] [] w :=
  ⟨rfl, rfl, rfl, List.nil_prefix, List.nil_prefix⟩

theorem sees_still (w : World KvRam) :
    Sees w.blobs w.top (w.ram.keyInlineMax, w.ram.valInlineMax) [] [] w.still :=
  ⟨rfl, rfl, rfl, List.nil_prefix, List.nil_prefix⟩

theorem Silent.holds {α : Type} {x : K α} {Q : Post (World KvRam) Errno α} (hx : Silent x)
    (hs : Spec telling
      (Sees w.blobs w.top (w.ram.keyInlineMax, w.ram.valInlineMax) [] []) x Q) :
    Q.Holds (x w.still) ∧ ∀ e, ¬ Failing e (x w.still).2 := by
  have hhist := (hx w.still rfl).2
  constructor
  . refine hs _ (sees_still w) ?_
    intro ev hev
    rw [hhist] at hev
    cases hev
  . intro e hf
    obtain ⟨id, err, hmem⟩ := hf.read
    rw [hhist] at hmem
    cases hmem

-- An answer is what the map says.
theorem Silent.told {α : Type} {x : K α} {φ : α → Prop} {absent : Errno → Prop} {bad : Prop}
    (hx : Silent x)
    (hs : Spec telling (Sees w.blobs w.top (w.ram.keyInlineMax, w.ram.valInlineMax) [] []) x
      (answerPost w.blobs w.top (w.ram.keyInlineMax, w.ram.valInlineMax) φ absent bad)) :
    (∃ a, lookAt x w = .ok a ∧ φ a) ∨
      ∃ e, lookAt x w = .err e ∧ (absent e ∨ e = Errno.EINVAL ∧ bad) := by
  obtain ⟨hpost, hno⟩ := hx.holds hs
  rw [lookAt]
  generalize x w.still = r at hpost hno
  obtain ⟨o, s⟩ := r
  cases o with
  | ok a => exact .inl ⟨a, rfl, hpost.1⟩
  | err e =>
    refine .inr ⟨e, rfl, ?_⟩
    rcases hpost.2 with h | h | h
    . exact .inl h
    . exact absurd h (hno e)
    . exact .inr h
  | cut => exact hpost.elim

theorem Stored.told (h : Stored cfg g tbl w.blobs w.top) (key : List UInt8) (outSz : Nat) :
    (∃ v, tbl.map cfg g key = some v ∧
        lookAt (kvhashGet cfg g.root key outSz) w = .ok (fetched outSz v)) ∨
      tbl.map cfg g key = none ∧
        (lookAt (kvhashGet cfg g.root key outSz) w = .err Errno.ENOENT ∨
          (key.length = 0 ∨ 0xffff < key.length) ∧
            lookAt (kvhashGet cfg g.root key outSz) w = .err Errno.EINVAL) := by
  rcases (kvhashGet_views key outSz).silent.told (kvhashGet_spec (fun _ hw => hw) h key outSz) with
    ⟨f, hf, v, hv, rfl⟩ | ⟨e, he, ⟨rfl, hnone⟩ | ⟨rfl, hbad⟩⟩
  . exact .inl ⟨v, hv, hf⟩
  . exact .inr ⟨hnone, .inl he⟩
  . refine .inr ⟨?_, .inr ⟨hbad, he⟩⟩
    rw [Table.map_none]
    rintro p hp rfl
    have hfits := h.sound _ (h.shape.place_in p.key) p hp
    have h1 := hfits.key_pos
    have h2 := hfits.key_lt
    omega

theorem Stored.seen (h : Stored cfg g tbl w.blobs w.top) : kvSeen cfg g.root w = tbl.map cfg g := by
  funext key
  rw [kvSeen]
  rcases h.told key entLenMask with ⟨v, hv, hl⟩ | ⟨hnone, hl | ⟨_, hl⟩⟩
  . obtain ⟨p, hp, rfl, rfl⟩ := h.map_iff.mp hv
    have hlen := (h.sound _ (h.shape.place_in p.key) p hp).val_lt
    have hfetch : fetched entLenMask p.val = .value p.val := if_neg (by simp only [entLenMask]; omega)
    rw [hl, hfetch, hv]
  . rw [hl, hnone]
  . rw [hl, hnone]

/-! A full walk -/

-- Every returned key is passed back, up to `fuel` calls. The buffers take every key and every value.
def walkAll (cfg : KvCfg) (root : Nat) : Nat → List UInt8 → K (List (List UInt8 × List UInt8))
  | 0, _ => Proc.fail Errno.EMSGSIZE
  | fuel + 1, cursor => do
    match ← Proc.attempt (kvhashNext cfg root cursor entLenMask entLenMask) with
    | .error e => if e = Errno.ENODATA then pure [] else Proc.fail e
    | .ok (.tooSmall _ _) => Proc.fail Errno.ENOMEM
    | .ok (.entry key val) => do
      let rest ← walkAll cfg root fuel key
      pure ((key, val) :: rest)

theorem walkAll_views (fuel : Nat) (cursor : List UInt8) : Views (walkAll cfg root fuel cursor) := by
  induction fuel generalizing cursor with
  | zero => exact Views.fail _
  | succ fuel ih =>
    refine (kvhashNext_views _ _ _).attempt.bind fun o => ?_
    cases o with
    | error e => exact Views.ite (Views.ret _) (Views.fail _)
    | ok x =>
      cases x with
      | tooSmall kl vl => exact Views.fail _
      | entry key val => exact (ih key).bind fun _ => Views.ret _

-- The list is what the map has after the cursor, in order.
structure Lists (cfg : KvCfg) (g : Shape) (m : KvMap) (cursor : List UInt8)
    (l : List (List UInt8 × List UInt8)) : Prop where
  ascending : l.Pairwise fun x y => keyCmp cfg g x.1 y.1 = .lt
  members : ∀ k v, (k, v) ∈ l ↔ Above (keyCmp cfg g) m cursor k ∧ m k = some v

-- After the least key after the cursor come the others.
theorem above_least {cursor k : List UInt8} (hk : k ≠ [])
    (hl : LeastOf (keyCmp cfg g) (Above (keyCmp cfg g) m cursor) k) (l : List UInt8) :
    Above (keyCmp cfg g) m cursor l ↔ l = k ∨ Above (keyCmp cfg g) m k l := by
  constructor
  . intro hab
    have hnot := hl.2 l hab
    by_cases he : l = k
    . exact .inl he
    . refine .inr ⟨hab.1, fun _ => ?_⟩
      cases hc : keyCmp cfg g k l with
      | lt => rfl
      | eq => exact absurd (Std.LawfulEqCmp.eq_of_compare hc).symm he
      | gt => exact absurd (Std.OrientedCmp.lt_of_gt hc) hnot
  . rintro (rfl | hab)
    . exact hl.1
    . exact ⟨hab.1, fun hne => Std.TransCmp.lt_trans (hl.1.2 hne) (hab.2 hk)⟩

theorem Lists.cons {cursor k v : List UInt8} {l : List (List UInt8 × List UInt8)} (hk : k ≠ [])
    (hl : LeastOf (keyCmp cfg g) (Above (keyCmp cfg g) m cursor) k) (hv : m k = some v)
    (h : Lists cfg g m k l) : Lists cfg g m cursor ((k, v) :: l) where
  ascending := by
    refine List.pairwise_cons.mpr ⟨?_, h.ascending⟩
    rintro ⟨x, y⟩ hx
    exact ((h.members x y).mp hx).1.2 hk
  members x y := by
    rw [List.mem_cons, h.members, above_least hk hl, Prod.mk.injEq]
    constructor
    . rintro (⟨rfl, rfl⟩ | ⟨hx, hy⟩)
      . exact ⟨.inl rfl, hv⟩
      . exact ⟨.inr hx, hy⟩
    . rintro ⟨rfl | hx, hy⟩
      . rw [hv] at hy
        exact .inl ⟨rfl, (Option.some.inj hy).symm⟩
      . exact .inr ⟨hx, hy⟩

theorem Lists.keys {cursor : List UInt8} {l : List (List UInt8 × List UInt8)}
    (h : Lists cfg g m cursor l) : (l.map Prod.fst).Nodup := by
  rw [List.Nodup, List.pairwise_map]
  refine h.ascending.imp fun {x y} hlt he => ?_
  rw [he] at hlt
  exact keyCmp_irrefl y.1 hlt

theorem Stored.key_ne {b : Blobs} {top : Nat} (h : Stored cfg g tbl b top) {k : List UInt8}
    (hk : tbl.map cfg g k ≠ none) : k ≠ [] := by
  obtain ⟨p, hp, rfl⟩ := present_iff.mp hk
  exact List.ne_nil_of_length_pos (h.sound _ (h.shape.place_in p.key) p hp).key_pos

theorem Stored.successor {b : Blobs} {top : Nat} (h : Stored cfg g tbl b top) {k v : List UInt8}
    (hv : tbl.map cfg g k = some v) : successor entLenMask entLenMask k v = .entry k v := by
  obtain ⟨p, hp, rfl, rfl⟩ := h.map_iff.mp hv
  have hfits := h.sound _ (h.shape.place_in p.key) p hp
  have h1 := hfits.key_lt
  have h2 := hfits.val_lt
  refine if_neg ?_
  simp only [entLenMask]
  omega

theorem walkAll_spec {H : Hypothesis (World KvRam)} (hH : ∀ w, H.holds w → telling.holds w)
    {b : Blobs} {top : Nat} {lim : Nat × Nat} (h : Stored cfg g tbl b top) {fuel : Nat}
    {cursor : List UInt8} (hlen : cursor.length ≤ 0xffff)
    (hfuel : ∀ ks : List (List UInt8), ks.Nodup →
      (∀ k ∈ ks, Above (keyCmp cfg g) (tbl.map cfg g) cursor k) → ks.length < fuel) :
    Spec H (Sees b top lim [] []) (walkAll cfg g.root fuel cursor)
      (readPost b top lim [] [] (Lists cfg g (tbl.map cfg g) cursor)) := by
  induction fuel generalizing cursor with
  | zero => exact absurd (hfuel [] List.nodup_nil nofun) (Nat.lt_irrefl 0)
  | succ fuel ih =>
    rw [walkAll]
    refine (kvhashNext_spec hH h cursor entLenMask entLenMask).attempt.bind ?_
      (fun _ _ hf => hf.elim) fun _ hf => hf
    rintro (e | x)
    . refine Spec.ite (fun he => ?_) fun he => ?_
      . refine Spec.ret fun s hs => ⟨?_, hs.1⟩
        rcases hs.2 with ⟨_, hnone⟩ | hf | ⟨hinv, _⟩
        . exact ⟨List.Pairwise.nil, fun k v => by simpa using fun hk => absurd hk (hnone k)⟩
        . exact absurd he hf.nodata
        . rw [he] at hinv
          cases hinv
      . refine Spec.fail fun s hs => ⟨hs.1, ?_⟩
        rcases hs.2 with ⟨hno, _⟩ | hf | ⟨_, hbad⟩
        . exact absurd hno he
        . exact hf
        . omega
    . refine Spec.fact ?_
      rintro ⟨k, v, hl, hv, rfl⟩
      have hne := h.key_ne hl.1.1
      have hklen : k.length ≤ 0xffff := by
        obtain ⟨p, hp, rfl⟩ := present_iff.mp hl.1.1
        have := (h.sound _ (h.shape.place_in p.key) p hp).key_lt
        omega
      have hfewer : ∀ ks : List (List UInt8), ks.Nodup →
          (∀ l ∈ ks, Above (keyCmp cfg g) (tbl.map cfg g) k l) → ks.length < fuel := by
        intro ks hks hall
        have hk : k ∉ ks := by
          intro hmem
          exact keyCmp_irrefl k ((hall k hmem).2 hne)
        have := hfuel (k :: ks) (List.nodup_cons.mpr ⟨hk, hks⟩) fun l hl' => by
          rw [above_least hne hl]
          rcases List.mem_cons.mp hl' with rfl | hl'
          . exact .inl rfl
          . exact .inr (hall l hl')
        rw [List.length_cons] at this
        omega
      rw [h.successor hv]
      refine Spec.reads (ih hklen hfewer) ?_ fun e s hs he => ⟨hs, he⟩
      intro l hlist
      exact Spec.ret fun s hs => ⟨hlist.cons hne hl hv, hs⟩

/-! What the buckets hold -/

-- A directory that can be loaded, with what a load reports of it.
def dirAt (cfg : KvCfg) (b : Blobs) (id : Nat) : Option (List UInt8 × DirInfo) :=
  match b id with
  | none => none
  | some buf =>
    if cfg.maxPayload < buf.length then none
    else
      match dirCheck cfg.toStoreCfg buf buf.length with
      | .error _ => none
      | .ok d => some (buf, d)

def mapLeaves (cfg : KvCfg) (b : Blobs) (root : Nat) : List (List UInt8 × DirInfo) :=
  match dirAt cfg b root with
  | none => []
  | some (buf, d) =>
    if d.depth = 1 then [(buf, d)]
    else (List.range d.n).filterMap fun t => dirAt cfg b (dirChild buf t)

-- The payloads of the buckets that the directories lead to.
def mapBuckets (cfg : KvCfg) (b : Blobs) (root : Nat) : List (List UInt8) :=
  (mapLeaves cfg b root).flatMap fun x =>
    (List.range x.2.n).filterMap fun i => if dirChild x.1 i = 0 then none else b (dirChild x.1 i)

-- Every entry, with the bucket that it is in.
def mapEntries (cfg : KvCfg) (b : Blobs) (root : Nat) : List (List UInt8 × Ent) :=
  (mapBuckets cfg b root).flatMap fun buf => (bktEnts buf buf.length).map fun x => (buf, x.2)

def entryKey (b : Blobs) (x : List UInt8 × Ent) : List UInt8 :=
  if x.2.kspill then (b (entKeyId x.1 x.2)).getD [] else (x.1.drop x.2.kpos).take x.2.kl

def entryVal (b : Blobs) (x : List UInt8 × Ent) : List UInt8 :=
  if x.2.vspill then (b (entValId x.1 x.2)).getD [] else (x.1.drop x.2.vpos).take x.2.vl

-- The blobs that an entry names are live, with the lengths and the fingerprint it says.
structure EntryLive (cfg : KvCfg) (b : Blobs) (x : List UInt8 × Ent) : Prop where
  key : x.2.kspill = true → ∃ k, b (entKeyId x.1 x.2) = some k ∧ k.length = x.2.kl ∧
    keyFp cfg k = u32Of x.1 x.2.kpos
  val : x.2.vspill = true → ∃ v, b (entValId x.1 x.2) = some v ∧ v.length = x.2.vl

variable {b : Blobs} {top : Nat}

theorem dirAt_image {id magic version depth n : Nat} {child : Nat → Nat}
    (hok : DirOk cfg.toStoreCfg magic version depth n)
    (hb : b id = some (dirImage magic version depth n child)) :
    dirAt cfg b id =
      some (dirImage magic version depth n child, ⟨n, depth, magic = kvhashDirDying⟩) := by
  have hcheck : dirCheck cfg.toStoreCfg (dirImage magic version depth n child ++ []) (dirLen n) = _ :=
    hok.check
  rw [List.append_nil] at hcheck
  simp only [dirAt, hb, dirImage_length, hcheck]
  exact if_neg (Nat.not_lt.mpr hok.fits)

theorem dirChild_whole {magic version depth n i : Nat} {child : Nat → Nat} (hi : i < n)
    (hid : child i < 2 ^ 64) : dirChild (dirImage magic version depth n child) i = child i := by
  have hchild : dirChild (dirImage magic version depth n child ++ []) i = child i :=
    dirChild_image hi hid
  rwa [List.append_nil] at hchild

-- The directories and the buckets are the same.
structure SameFrame (g : Shape) (tbl : Table) (b b' : Blobs) : Prop where
  root : b' g.root = b g.root
  leaf : ∀ t < g.fan, b' (tbl.leaf t) = b (tbl.leaf t)
  bucket : ∀ c, g.In c → tbl.bid c ≠ 0 → b' (tbl.bid c) = b (tbl.bid c)

theorem SameFrame.refl : SameFrame g tbl b b := ⟨rfl, fun _ _ => rfl, fun _ _ _ => rfl⟩

theorem Stored.leaves (h : Stored cfg g tbl b top) {b' : Blobs} (hsame : SameFrame g tbl b b') :
    mapLeaves cfg b' g.root =
      (List.range g.fan).map fun t => (tbl.leafImage g t, ⟨g.n, 1, false⟩) := by
  rcases h.shape.levels with ⟨hd, hfan⟩ | ⟨hd, _⟩
  . have hdir := (hsame.leaf 0 h.shape.fan_pos).trans (h.leaf_dir 0 h.shape.fan_pos)
    rw [h.one_level hd] at hdir
    rw [mapLeaves, dirAt_image h.leafOk hdir, hfan]
    rfl
  . rw [mapLeaves, dirAt_image (h.topOk hd) (hsame.root.trans (h.top_dir hd))]
    simp only [OfNat.ofNat_ne_one, if_false]
    rw [← List.filterMap_eq_map]
    refine List.filterMap_congr fun t ht => ?_
    have ht := List.mem_range.mp ht
    rw [dirChild_whole ht (h.leaf_lt ht),
      dirAt_image h.leafOk ((hsame.leaf t ht).trans (h.leaf_dir t ht))]
    rfl

theorem located_map {γ : Type} {f : Nat × Ent → γ} {q : Pair → γ} {pre ps : List Pair}
    (hf : ∀ seen p rest, pre ++ ps = seen ++ p :: rest →
      f (bktSize seen, p.ent (bktSize seen)) = q p) :
    (located (bktSize pre) ps).map f = ps.map q := by
  induction ps generalizing pre with
  | nil => rfl
  | cons p ps ih =>
    rw [located, List.map_cons, List.map_cons, hf pre p ps rfl]
    have hnext : bktSize pre + p.size = bktSize (pre ++ [p]) := by
      rw [bktSize_append, bktSize_cons]
      rfl
    rw [hnext, ih]
    intro seen r rest hsplit
    exact hf seen r rest (by rw [← hsplit]; simp)

-- The entries of a cell.
theorem Stored.entries_cell (h : Stored cfg g tbl b top) {c : Nat × Nat} (hc : g.In c) {γ : Type}
    {f : List UInt8 × Ent → γ} {q : Pair → γ}
    (hf : ∀ p ∈ tbl.pairs c, ∀ off, Shows cfg (bktImage cfg (tbl.pairs c)) off p →
      f (bktImage cfg (tbl.pairs c), p.ent off) = q p) :
    (bktEnts (bktImage cfg (tbl.pairs c)) (bktImage cfg (tbl.pairs c)).length).map
      (fun x => f (bktImage cfg (tbl.pairs c), x.2)) = (tbl.pairs c).map q := by
  rw [bktImage_length, bktEnts_eq (fun p hp => (h.sound c hc p hp).toFits)
    (List.append_nil _).symm]
  refine (@located_map _ _ _ []) fun seen p rest hsplit => ?_
  rw [List.nil_append] at hsplit
  have hprefix : bktImage cfg (seen ++ p :: rest) <+: bktImage cfg (tbl.pairs c) :=
    hsplit ▸ List.prefix_rfl
  exact hf p (by simp [hsplit]) _ (shows_split hprefix)

theorem Stored.entries_map (h : Stored cfg g tbl b top) {b' : Blobs} (hsame : SameFrame g tbl b b')
    {γ : Type} {f : List UInt8 × Ent → γ} {q : Pair → γ}
    (hf : ∀ c, g.In c → ∀ p ∈ tbl.pairs c, ∀ off, Shows cfg (bktImage cfg (tbl.pairs c)) off p →
      f (bktImage cfg (tbl.pairs c), p.ent off) = q p) :
    (mapEntries cfg b' g.root).map f = (treePairs g tbl g.fan 0).map q := by
  rw [mapEntries, mapBuckets, h.leaves hsame, treePairs, List.map_flatMap, List.map_flatMap,
    List.flatMap_map, List.flatMap_assoc, ← List.range_eq_range']
  refine List.flatMap_congr fun t ht => ?_
  have ht := List.mem_range.mp ht
  rw [leafPairs, List.map_flatMap, ← List.range_eq_range', List.filterMap_eq_flatMap_toList,
    List.flatMap_assoc]
  refine List.flatMap_congr fun i hi => ?_
  have hi := List.mem_range.mp hi
  have hin : g.In (t, i) := ⟨ht, hi⟩
  rw [Table.leafImage, dirChild_whole hi (h.bid_lt hin)]
  split
  . next h0 =>
    rw [h.empty _ hin h0]
    rfl
  . next h0 =>
    rw [hsame.bucket _ hin h0, h.bucket _ hin h0, Option.toList_some, List.flatMap_singleton, List.map_map]
    exact h.entries_cell hin (hf _ hin)

theorem Shows.valHere {buf : List UInt8} {off : Nat} {p : Pair} (hs : Shows cfg buf off p)
    (hv : p.vid = 0) : ∃ rest, buf.drop (p.ent off).vpos = p.val ++ rest := by
  obtain ⟨rest, hrest⟩ := hs.valPart
  rw [if_neg (fun hn => hn hv)] at hrest
  exact ⟨_, hrest⟩

theorem Shows.entry {buf : List UInt8} {off : Nat} {p : Pair} (hs : Shows cfg buf off p)
    (hp : p.Sound b) :
    entryKey b (buf, p.ent off) = p.key ∧ entryVal b (buf, p.ent off) = p.val ∧
      EntryLive cfg b (buf, p.ent off) := by
  refine ⟨?_, ?_, ?_, ?_⟩
  . rw [entryKey]
    by_cases hk : p.kid = 0
    . obtain ⟨rest, hrest⟩ := hs.keyHere hk
      rw [if_neg (by simp [Pair.ent, hk]), hrest]
      exact List.take_left' rfl
    . rw [if_pos (by simp [Pair.ent, hk]), hs.keyId hp.toFits, hp.key_live hk]
      rfl
  . rw [entryVal]
    by_cases hv : p.vid = 0
    . obtain ⟨rest, hrest⟩ := hs.valHere hv
      rw [if_neg (by simp [Pair.ent, hv]), hrest]
      exact List.take_left' rfl
    . rw [if_pos (by simp [Pair.ent, hv]), hs.valId hp.toFits, hp.val_live hv]
      rfl
  . intro hk
    have hk : p.kid ≠ 0 := by simpa [Pair.ent] using hk
    rw [hs.keyId hp.toFits]
    exact ⟨p.key, hp.key_live hk, rfl, (hs.keyRef hp.toFits hk).1.symm⟩
  . intro hv
    have hv : p.vid ≠ 0 := by simpa [Pair.ent] using hv
    rw [hs.valId hp.toFits]
    exact ⟨p.val, hp.val_live hv, rfl⟩

-- What is known of every pair is known of every entry.
theorem Stored.entries_live (h : Stored cfg g tbl b top) :
    ∀ x ∈ mapEntries cfg b g.root, EntryLive cfg b x := by
  have hmap : (mapEntries cfg b g.root).map (EntryLive cfg b) =
      (treePairs g tbl g.fan 0).map fun _ => True :=
    h.entries_map SameFrame.refl fun c hc p hp off hs => eq_true (hs.entry (h.sound c hc p hp)).2.2
  intro x hx
  have hmem : EntryLive cfg b x ∈ (mapEntries cfg b g.root).map (EntryLive cfg b) :=
    List.mem_map.mpr ⟨x, hx, rfl⟩
  rw [hmap] at hmem
  obtain ⟨_, _, htrue⟩ := List.mem_map.mp hmem
  exact of_eq_true htrue.symm

-- The entries are the map, and no key has two of them.
theorem Stored.entries (h : Stored cfg g tbl b top) :
    ((mapEntries cfg b g.root).map (entryKey b)).Nodup ∧
      ∀ k v, tbl.map cfg g k = some v ↔
        ∃ x ∈ mapEntries cfg b g.root, entryKey b x = k ∧ entryVal b x = v := by
  constructor
  . have hkeys : (mapEntries cfg b g.root).map (entryKey b) =
        (treePairs g tbl g.fan 0).map Pair.key :=
      h.entries_map SameFrame.refl fun c hc p hp off hs => (hs.entry (h.sound c hc p hp)).1
    rw [hkeys]
    exact treePairs_keys h
  . intro k v
    have hpairs : (mapEntries cfg b g.root).map (fun x => (entryKey b x, entryVal b x)) =
        (treePairs g tbl g.fan 0).map fun p => (p.key, p.val) := by
      refine h.entries_map SameFrame.refl fun c hc p hp off hs => ?_
      have hentry := hs.entry (h.sound c hc p hp)
      rw [hentry.1, hentry.2.1]
    have hmem : (k, v) ∈ (mapEntries cfg b g.root).map (fun x => (entryKey b x, entryVal b x)) ↔
        (k, v) ∈ (treePairs g tbl g.fan 0).map fun p => (p.key, p.val) := by rw [hpairs]
    rw [List.mem_map, List.mem_map] at hmem
    simp only [Prod.mk.injEq] at hmem
    rw [hmem, h.map_iff]
    constructor
    . rintro ⟨p, hp, rfl, hv⟩
      exact ⟨p, mem_treePairs.mpr ⟨_, h.shape.place_in p.key, hp⟩, rfl, hv⟩
    . rintro ⟨p, hp, rfl, hv⟩
      obtain ⟨c, hc, hp⟩ := mem_treePairs.mp hp
      exact ⟨p, (h.placed c hc p hp).symm ▸ hp, rfl, hv⟩

/-! The readers agree -/

-- The entries name live blobs with their bytes, and get, a full walk and count show the same map.
structure Coherent (cfg : KvCfg) (root : Nat) (w : World KvRam) : Prop where
  live : ∀ x ∈ mapEntries cfg w.blobs root, EntryLive cfg w.blobs x
  entries : ∀ k v, kvSeen cfg root w k = some v ↔
    ∃ x ∈ mapEntries cfg w.blobs root, entryKey w.blobs x = k ∧ entryVal w.blobs x = v
  readers : ∃ l, lookAt (walkAll cfg root (l.length + 1) []) w = .ok l ∧
    (l.map Prod.fst).Nodup ∧ lookAt (kvhashCount cfg root) w = .ok l.length ∧
    ∀ k v, kvSeen cfg root w k = some v ↔ (k, v) ∈ l

theorem Counts.length_le {n : Nat} (h : Counts m n) {ks : List (List UInt8)} (hks : ks.Nodup)
    (hall : ∀ k ∈ ks, m k ≠ none) : ks.length ≤ n := by
  obtain ⟨keys, _, hmem, rfl⟩ := h
  exact (List.subperm_of_subset hks fun k hk => (hmem k).mpr (hall k hk)).length_le

theorem Counts.unique {n n' : Nat} (h : Counts m n) (h' : Counts m n') : n = n' := by
  obtain ⟨keys, hnodup, hmem, rfl⟩ := h
  obtain ⟨keys', hnodup', hmem', rfl⟩ := h'
  apply le_antisymm
  . exact Counts.length_le ⟨keys', hnodup', hmem', rfl⟩ hnodup fun k hk => (hmem k).mp hk
  . exact Counts.length_le ⟨keys, hnodup, hmem, rfl⟩ hnodup' fun k hk => (hmem' k).mp hk

-- A walk from the start lists the whole map.
theorem Lists.counts {l : List (List UInt8 × List UInt8)} (h : Lists cfg g m [] l) :
    Counts m l.length := by
  refine ⟨l.map Prod.fst, h.keys, fun k => ?_, List.length_map _⟩
  constructor
  . intro hk
    obtain ⟨⟨x, v⟩, hx, rfl⟩ := List.mem_map.mp hk
    exact ((h.members x v).mp hx).1.1
  . intro hk
    obtain ⟨v, hv⟩ := Option.ne_none_iff_exists'.mp hk
    exact List.mem_map.mpr ⟨(k, v), (h.members k v).mpr ⟨⟨hk, nofun⟩, hv⟩, rfl⟩

theorem Silent.found {α : Type} {x : K α} {φ : α → Prop} (hx : Silent x)
    (hs : Spec telling (Sees w.blobs w.top (w.ram.keyInlineMax, w.ram.valInlineMax) [] []) x
      (readPost w.blobs w.top (w.ram.keyInlineMax, w.ram.valInlineMax) [] [] φ)) :
    ∃ a, lookAt x w = .ok a ∧ φ a := by
  obtain ⟨hpost, hno⟩ := hx.holds hs
  rw [lookAt]
  generalize x w.still = r at hpost hno
  obtain ⟨o, s⟩ := r
  cases o with
  | ok a => exact ⟨a, rfl, hpost.1⟩
  | err e => exact absurd hpost.2 (hno e)
  | cut => exact hpost.elim

theorem Stored.coherent (h : Stored cfg g tbl w.blobs w.top) : Coherent cfg g.root w := by
  refine ⟨h.entries_live, ?_, ?_⟩
  . rw [h.seen]
    exact h.entries.2
  . have htell : ∀ s : World KvRam, telling.holds s → telling.holds s := fun _ hs => hs
    obtain ⟨n, hn, hcounts⟩ := kvhashCount_views.silent.found (kvhashCount_spec htell h)
    have hfuel : ∀ ks : List (List UInt8), ks.Nodup →
        (∀ k ∈ ks, Above (keyCmp cfg g) (tbl.map cfg g) [] k) → ks.length < n + 1 := by
      intro ks hks hall
      have := hcounts.length_le hks fun k hk => (hall k hk).1
      omega
    obtain ⟨l, hl, hlists⟩ :=
      (walkAll_views (n + 1) []).silent.found (walkAll_spec htell h (by simp) hfuel)
    have hlen : l.length = n := hlists.counts.unique hcounts
    rw [← hlen] at hl hn
    refine ⟨l, hl, hlists.keys, hn, fun k v => ?_⟩
    rw [h.seen, hlists.members]
    constructor
    . intro hv
      exact ⟨⟨by rw [hv]; exact nofun, nofun⟩, hv⟩
    . exact fun hkv => hkv.2

end KeyValueDb.Containers
