import KeyValueDb.Containers.KvhashWrites

/-!
Setting a key. The blobs of the new entry are written first and nothing refers to them; one write then
changes the map, the bucket's or, if the bucket is new, its directory's; what only the old entry
referred to is deleted last.
-/

namespace KeyValueDb.Containers

variable {cfg : KvCfg} {H : Hypothesis (World KvRam)} {g : Shape} {tbl : Table} {b b1 b2 b3 : Blobs}
  {top top1 top2 top3 : Nat} {lim : Nat × Nat} {dir bkt key val : List UInt8} {kept : List Pair}
  {old : Option Pair}

-- The bucket of `key` holds the pairs `kept` and, if the key is in the map, its pair `old`.
structure Cell (cfg : KvCfg) (g : Shape) (tbl : Table) (key : List UInt8) (kept : List Pair)
    (old : Option Pair) : Prop where
  members : ∀ q, q ∈ tbl.pairs (g.place cfg key) ↔ q ∈ kept ∨ q ∈ old
  others : ∀ q ∈ kept, q.key ≠ key
  same : ∀ q ∈ old, q.key = key
  distinct : (kept.map Pair.key).Nodup

-- Only new ids have changed.
def GrownTo (b : Blobs) (top : Nat) (lim : Nat × Nat) (dir bkt : List UInt8) (s : World KvRam) :
    Prop :=
  ∃ b' top', Grown b top b' top' ∧ Sees b' top' lim dir bkt s

theorem GrownTo.trans {s : World KvRam} (hg : Grown b top b1 top1)
    (h : GrownTo b1 top1 lim dir bkt s) : GrownTo b top lim dir bkt s := by
  obtain ⟨b', top', hg', hs⟩ := h
  exact ⟨b', top', hg.trans hg', hs⟩

theorem GrownTo.weaken {s : World KvRam} (h : GrownTo b top lim dir bkt s) :
    GrownTo b top lim [] [] s := by
  obtain ⟨b', top', hg, hs⟩ := h
  exact ⟨b', top', hg, hs.idle⟩

theorem Grown.refl (h : top < 2 ^ 64) : Grown b top b top := ⟨le_rfl, h, fun _ _ => rfl⟩

def grownPost (α : Type) (b : Blobs) (top : Nat) (lim : Nat × Nat) (dir bkt : List UInt8)
    (ok : α → World KvRam → Prop) : Post (World KvRam) Errno α where
  ok := ok
  err e s := e.Telling ∧ GrownTo b top lim dir bkt s
  cut s := GrownTo b top lim dir bkt s

/-! The blobs of the new entry -/

-- The key blob `kid` of the new entry.
structure NewKey (g : Shape) (tbl : Table) (b : Blobs) (top : Nat) (key : List UInt8) (spill : Bool)
    (kid : Nat) (fresh : Bool) (b1 : Blobs) (top1 : Nat) : Prop where
  grown : Grown b top b1 top1
  spill : decide (kid ≠ 0) = spill
  live : kid ≠ 0 → b1 kid = some key
  origin : kid ≠ 0 → fresh = false ∧ tbl.Owns g (.key key) kid ∨ fresh = true ∧ top < kid ∧ kid ≤ top1
  fresh : fresh = true → kid ≠ 0

-- The value blob `vid` of the new entry.
structure NewVal (b1 : Blobs) (top1 : Nat) (val : List UInt8) (spill : Bool) (vid : Nat) (b2 : Blobs)
    (top2 : Nat) : Prop where
  grown : Grown b1 top1 b2 top2
  spill : decide (vid ≠ 0) = spill
  live : vid ≠ 0 → b2 vid = some val
  origin : vid ≠ 0 → top1 < vid ∧ vid ≤ top2

def Pair.replaced (q : Pair) : Replaced := ⟨q.kid ≠ 0, q.kid, q.vid⟩

theorem NewKey.bound {id : Nat} (hid : top < id) (hlt : id < 2 ^ 64) :
    NewKey g tbl b top key true id true (Function.update b id (some key)) id where
  grown := Grown.update ⟨hid.le, hlt, fun _ _ => rfl⟩ hid _
  spill := decide_eq_true (by omega)
  live _ := Function.update_self _ _ _
  origin _ := .inr ⟨rfl, hid, le_rfl⟩
  fresh _ := by omega

-- The key keeps its blob, or needs none.
theorem Cell.newKey_old (h : Stored cfg g tbl b top) (hcell : Cell cfg g tbl key kept old)
    {p : Placement} (hno : ¬ (p.kspill ∧ reusedKid p (old.map Pair.replaced) = 0)) :
    NewKey g tbl b top key p.kspill (reusedKid p (old.map Pair.replaced)) false b top := by
  have hin := h.shape.place_in key
  have hold : ∀ kid, reusedKid p (old.map Pair.replaced) = kid → kid ≠ 0 →
      p.kspill = true ∧ b kid = some key ∧ tbl.Owns g (.key key) kid := by
    intro kid he hkid
    cases old with
    | none => exact absurd he.symm hkid
    | some q =>
      have hq := (hcell.members q).mpr (.inr rfl)
      have hkey := hcell.same q rfl
      simp only [Option.map_some, Pair.replaced, reusedKid] at he
      split at he
      . next hspill =>
        simp only [Bool.and_eq_true, decide_eq_true_eq] at hspill
        subst he
        refine ⟨hspill.1, ?_, ?_⟩
        . rw [(h.sound _ hin q hq).key_live hspill.2, hkey]
        . rw [← hkey]
          exact .key hin hq hspill.2
      . exact absurd he.symm hkid
  generalize reusedKid p (old.map Pair.replaced) = kid at hold hno ⊢
  have hold := hold kid rfl
  refine ⟨Grown.refl h.top_lt, ?_, fun hk => (hold hk).2.1, fun hk => .inl ⟨rfl, (hold hk).2.2⟩, nofun⟩
  by_cases hk : kid = 0
  . simp [hk] at hno
    simp [hk, hno]
  . simp [hk, (hold hk).1]

theorem NewVal.bound {id : Nat} (hid : top1 < id) (hlt : id < 2 ^ 64) :
    NewVal b1 top1 val true id (Function.update b1 id (some val)) id where
  grown := Grown.update ⟨hid.le, hlt, fun _ _ => rfl⟩ hid _
  spill := decide_eq_true (by omega)
  live _ := Function.update_self _ _ _
  origin _ := ⟨hid, le_rfl⟩

theorem NewVal.none (hlt : top1 < 2 ^ 64) : NewVal b1 top1 val false 0 b1 top1 :=
  ⟨Grown.refl hlt, rfl, fun h => absurd rfl h, fun h => absurd rfl h⟩

section Entry

variable {ks vs fr : Bool} {kid vid : Nat} {p : Placement}

theorem NewKey.key_new (hk : NewKey g tbl b top key ks kid fr b1 top1) :
    (if fr then kid else 0) = 0 ∨ top < (if fr then kid else 0) := by
  cases fr with
  | false => exact .inl rfl
  | true =>
    rcases hk.origin (hk.fresh rfl) with ⟨hf, _⟩ | ⟨_, hnew, _⟩
    . cases hf
    . exact .inr hnew

theorem NewKey.val_new (hk : NewKey g tbl b top key ks kid fr b1 top1)
    (hv : NewVal b1 top1 val vs vid b2 top2) : vid = 0 ∨ top < vid := by
  by_cases h0 : vid = 0
  . exact .inl h0
  . have := hv.origin h0
    have := hk.grown.top_le
    exact .inr (by omega)

theorem NewKey.placement (hk : NewKey g tbl b top key p.kspill kid fr b1 top1)
    (hv : NewVal b1 top1 val p.vspill vid b2 top2) : (Pair.mk key val kid vid).placement = p := by
  cases p
  rw [Pair.placement, hk.spill, hv.spill]

theorem NewKey.small (hk : NewKey g tbl b top key p.kspill kid fr b1 top1)
    (hv : NewVal b1 top1 val p.vspill vid b2 top2)
    (hroom : ¬ cfg.maxPayload < bktSize kept + entNeed key val p) :
    bktSize (kept ++ [⟨key, val, kid, vid⟩]) ≤ cfg.maxPayload := by
  have hsize : (Pair.mk key val kid vid).size = entNeed key val p := by
    rw [Pair.size, hk.placement hv]
  rw [bktSize_append, bktSize_cons, hsize]
  simp only [bktSize, List.map_nil, List.sum_nil] at hroom ⊢
  omega

theorem NewKey.fits (hk : NewKey g tbl b top key ks kid fr b1 top1) (h : Stored cfg g tbl b top)
    (hv : NewVal b1 top1 val vs vid b2 top2) (hpos : 0 < key.length) (hklt : key.length < 2 ^ 15)
    (hvlt : val.length < 2 ^ 15) : (Pair.mk key val kid vid).Fits := by
  refine ⟨hpos, hklt, hvlt, ?_, ?_⟩
  . show kid < 2 ^ 64
    have h1 := hk.grown.top_lt
    by_cases h0 : kid = 0
    . omega
    . rcases hk.origin h0 with ⟨_, ho⟩ | ⟨_, hnew⟩
      . exact h.id_lt ho
      . omega
  . show vid < 2 ^ 64
    have h2 := hv.grown.top_lt
    by_cases h0 : vid = 0
    . omega
    . have := hv.origin h0
      omega

end Entry

section Writing

variable (hH : ∀ w, H.holds w → plain.holds w)

include hH

-- A blob of its own for `data`, at an id that is new.
theorem bindFresh_spec (hlt : top < 2 ^ 64) (data : List UInt8) {α : Type} {f : Nat → K α}
    {Q : Post (World KvRam) Errno α}
    (hok : ∀ id, top < id → id < 2 ^ 64 →
      Spec H (Sees (Function.update b id (some data)) id lim dir bkt) (f id) Q)
    (herr : ∀ e s, e.Telling → GrownTo b top lim dir bkt s → Q.err e s)
    (hcut : ∀ s, GrownTo b top lim dir bkt s → Q.cut s) :
    Spec H (Sees b top lim dir bkt)
      (blobDbAllocId >>= fun fresh =>
        if fresh = 0 then Proc.fail Errno.EIO
        else do
          kvUpdate cfg fresh data
          f fresh) Q := by
  refine blobDbAllocId_spec.bind ?_ (fun _ _ h => h.elim) fun _ h => h.elim
  intro id
  refine Spec.ite (fun h0 => ?_) fun h0 => ?_
  . refine Spec.fail fun s hs => herr _ s ⟨nofun, nofun⟩ ?_
    rcases hs with ⟨_, hs⟩ | ⟨⟨hid, _⟩, _⟩
    . exact ⟨b, top, Grown.refl hlt, hs⟩
    . omega
  . refine Spec.pre (P := fun s => (top < id ∧ id < 2 ^ 64) ∧ Sees b id lim dir bkt s) ?_ fun s hs =>
      hs.resolve_left fun h => h0 h.1
    refine Spec.fact ?_
    rintro ⟨hid, hid'⟩
    have hgrown : Grown b top b id := ⟨by omega, hid', fun _ _ => rfl⟩
    refine (kvUpdate_spec hH id data).bind (fun _ => hok id hid hid') ?_ ?_
    . rintro e s ⟨htold, hs⟩
      exact herr e s htold ⟨b, id, hgrown, hs⟩
    . rintro s (hs | hs)
      . exact hcut s ⟨b, id, hgrown, hs⟩
      . exact hcut s ⟨_, id, hgrown.update hid _, hs⟩

theorem setKeyBlob_spec (h : Stored cfg g tbl b top) (hcell : Cell cfg g tbl key kept old)
    (p : Placement) :
    Spec H (Sees b top lim dir bkt) (setKeyBlob cfg key p (old.map Pair.replaced))
      (grownPost _ b top lim dir bkt fun x s => ∃ b1 top1,
        NewKey g tbl b top key p.kspill x.1 x.2 b1 top1 ∧ Sees b1 top1 lim dir bkt s) := by
  rw [setKeyBlob]
  refine Spec.ite (fun hnew => ?_) fun hno => ?_
  . refine bindFresh_spec hH h.top_lt key ?_ (fun e s htold hs => ⟨htold, hs⟩) fun s hs => hs
    intro id hid hlt
    rw [hnew.1]
    exact Spec.ret fun s hs => ⟨_, id, NewKey.bound hid hlt, hs⟩
  . exact Spec.ret fun s hs => ⟨b, top, hcell.newKey_old h hno, hs⟩

theorem setValBlob_spec (hlt : top1 < 2 ^ 64) (val : List UInt8) (p : Placement) :
    Spec H (Sees b1 top1 lim dir bkt) (setValBlob cfg val p)
      (grownPost _ b1 top1 lim dir bkt fun vid s => ∃ b2 top2,
        NewVal b1 top1 val p.vspill vid b2 top2 ∧ Sees b2 top2 lim dir bkt s) := by
  rw [setValBlob]
  refine Spec.ite (fun hspill => ?_) fun hspill => ?_
  . refine bindFresh_spec hH hlt val ?_ (fun e s htold hs => ⟨htold, hs⟩) fun s hs => hs
    intro id hid hlt
    rw [hspill]
    exact Spec.ret fun s hs => ⟨_, id, NewVal.bound hid hlt, hs⟩
  . rw [Bool.not_eq_true] at hspill
    rw [hspill]
    exact Spec.ret fun s hs => ⟨b1, top1, NewVal.none hlt, hs⟩

theorem releaseNew_spec {id : Nat} (hid : id = 0 ∨ top < id) :
    Spec H (GrownTo b top lim dir bkt) (releasePart id)
      ⟨fun _ => GrownTo b top lim dir bkt, fun _ _ => False, GrownTo b top lim dir bkt⟩ := by
  refine Spec.given fun b1 => Spec.given fun top1 => Spec.fact fun hg => ?_
  have hpost : ∀ s, Sees b1 top1 lim dir bkt s ∨ id ≠ 0 ∧ Either b1 top1 lim dir bkt id none s →
      GrownTo b top lim dir bkt s := by
    rintro s (hs | ⟨h0, hs | hs⟩)
    . exact ⟨b1, top1, hg, hs⟩
    . exact ⟨b1, top1, hg, hs⟩
    . exact ⟨_, top1, hg.update (hid.resolve_left h0) none, hs⟩
  exact (releasePart_spec hH id).conseq (fun _ hs => hs) (fun _ => hpost) (fun _ _ h => h) hpost

theorem setUndo_spec {vid kid : Nat} (hvid : vid = 0 ∨ top < vid) (hkid : kid = 0 ∨ top < kid)
    {e : Errno} (he : e.Telling) :
    Spec H (GrownTo b top lim dir bkt) (setUndo vid kid e)
      (grownPost _ b top lim dir bkt fun _ _ => False) := by
  refine (releaseNew_spec hH hvid).bind (fun _ => ?_) (fun _ _ h => h.elim) fun _ hs => hs
  refine (releaseNew_spec hH hkid).bind (fun _ => ?_) (fun _ _ h => h.elim) fun _ hs => hs
  exact Spec.fail fun s hs => ⟨he, hs⟩

end Writing

/-! The commit -/

section Commit

variable {ks vs fr : Bool} {kid vid bid : Nat}

-- Where the bucket of the new entry is.
structure NewBucket (cfg : KvCfg) (g : Shape) (tbl : Table) (c : Nat × Nat) (ps : List Pair)
    (b2 : Blobs) (top2 : Nat) (bid : Nat) (b3 : Blobs) (top3 : Nat) : Prop where
  pos : bid ≠ 0
  origin : bid = tbl.bid c ∨ top2 < bid ∧ bid ≤ top3
  top_le : top2 ≤ top3
  top_lt : top3 < 2 ^ 64
  bucket : b3 bid = some (bktImage cfg ps)
  leaf_dir : b3 (tbl.leaf c.1) =
    some (dirImage kvhashDirMagic g.version 1 g.n fun i => Function.update tbl.bid c bid (c.1, i))
  same : ∀ id, id ≠ bid → id ≠ tbl.leaf c.1 → b3 id = b2 id

-- The bucket is rewritten.
theorem Stored.sameBucket (h : Stored cfg g tbl b top) {c : Nat × Nat} (hc : g.In c)
    (hg : Grown b top b2 top2) (hbid : tbl.bid c ≠ 0) (ps : List Pair) :
    NewBucket cfg g tbl c ps b2 top2 (tbl.bid c)
      (Function.update b2 (tbl.bid c) (some (bktImage cfg ps))) top2 := by
  have hleaf := h.ids _ _ (.leaf hc.1)
  have hne : tbl.leaf c.1 ≠ tbl.bid c := by
    intro he
    have ho : tbl.Owns g (.bucket c) (tbl.leaf c.1) := he ▸ .bucket hc hbid
    cases h.role_unique (.leaf hc.1) ho
  refine ⟨hbid, .inl rfl, le_rfl, hg.top_lt, Function.update_self _ _ _, ?_, ?_⟩
  . rw [Function.update_of_ne hne, hg.same _ hleaf.2, h.leaf_dir _ hc.1, Function.update_eq_self]
  . intro id hid _
    exact Function.update_of_ne hid _ _

theorem update_child (tbl : Table) (c : Nat × Nat) (bid : Nat) :
    Function.update (fun i => tbl.bid (c.1, i)) c.2 bid =
      fun i => Function.update tbl.bid c bid (c.1, i) := by
  funext i
  by_cases hi : i = c.2
  . subst hi
    rw [Function.update_self, Function.update_self]
  . rw [Function.update_of_ne hi, Function.update_of_ne fun he => hi (congrArg Prod.snd he)]

-- A new bucket is written and published.
theorem Stored.freshBucket (h : Stored cfg g tbl b top) {c : Nat × Nat} (hc : g.In c)
    (hg : Grown b top b2 top2) (hid : top2 < bid) (hlt : bid < 2 ^ 64) (ps : List Pair) :
    NewBucket cfg g tbl c ps b2 top2 bid
      (Function.update (Function.update b2 bid (some (bktImage cfg ps))) (tbl.leaf c.1)
        (some (dirImage kvhashDirMagic g.version 1 g.n
          (Function.update (fun i => tbl.bid (c.1, i)) c.2 bid)))) bid := by
  have hleaf := h.ids _ _ (.leaf hc.1)
  have hle := hg.top_le
  refine ⟨by omega, .inr ⟨hid, le_rfl⟩, by omega, hlt, ?_, ?_, ?_⟩
  . rw [Function.update_of_ne (by omega), Function.update_self]
  . rw [Function.update_self, update_child]
  . intro id hne hne'
    rw [Function.update_of_ne hne', Function.update_of_ne hne]

-- The blobs of a pair are neither the bucket nor its directory.
theorem NewBucket.apart {ps : List Pair} (h : Stored cfg g tbl b top)
    (hle : top ≤ top2) {c : Nat × Nat} (hc : g.In c)
    (hb : NewBucket cfg g tbl c ps b2 top2 bid b3 top3) {id : Nat}
    (hid : (∃ r, tbl.Owns g r id ∧ r ≠ .bucket c ∧ r ≠ .leaf c.1) ∨ top < id ∧ id ≤ top2) :
    b3 id = b2 id := by
  have hleaf := h.ids _ _ (.leaf hc.1)
  apply hb.same
  . rintro rfl
    rcases hb.origin with he | hnew
    . have hbid : tbl.Owns g (.bucket c) id := he ▸ .bucket hc (he ▸ hb.pos)
      rcases hid with ⟨r, ho, hr, _⟩ | hid
      . exact hr (h.role_unique ho hbid)
      . have := h.ids _ _ hbid
        omega
    . rcases hid with ⟨r, ho, _⟩ | hid
      . have := h.ids _ _ ho
        omega
      . omega
  . rintro rfl
    rcases hid with ⟨r, ho, _, hr⟩ | hid
    . exact hr (h.role_unique ho (.leaf hc.1))
    . omega

-- The new ids are handed out one after the other.
theorem Cell.kept_new (h : Stored cfg g tbl b top) (hcell : Cell cfg g tbl key kept old)
    (hk : NewKey g tbl b top key ks kid fr b1 top1) (hv : NewVal b1 top1 val vs vid b2 top2)
    {ps : List Pair} (hb : NewBucket cfg g tbl (g.place cfg key) ps b2 top2 bid b3 top3) :
    ∃ fresh : Nat → Option Role, Kept g tbl top top3 fresh (.bucket (g.place cfg key)) bid ∧
      (∀ p ∈ kept ++ [⟨key, val, kid, vid⟩], p.kid ≠ 0 →
        Kept g tbl top top3 fresh (.key p.key) p.kid) ∧
      ∀ p ∈ kept ++ [⟨key, val, kid, vid⟩], p.vid ≠ 0 →
        Kept g tbl top top3 fresh (.val p.key) p.vid := by
  have hc := h.shape.place_in key
  have hpairs : ∀ q ∈ kept, q ∈ tbl.pairs (g.place cfg key) :=
    fun q hq => (hcell.members q).mpr (.inl hq)
  have h1 := hk.grown.top_le
  have h2 := hv.grown.top_le
  have h3 := hb.top_le
  -- a bucket that is not new is below the ids that are
  have hold : bid = tbl.bid (g.place cfg key) → bid ≤ top := by
    intro he
    have ho : tbl.Owns g (.bucket (g.place cfg key)) bid := he ▸ .bucket hc (he ▸ hb.pos)
    exact (h.ids _ _ ho).2
  refine ⟨fun id => if id = bid then some (.bucket (g.place cfg key))
    else if id = kid then some (.key key) else some (.val key), ?_, ?_, ?_⟩
  . rcases hb.origin with he | hnew
    . exact .inl (he ▸ .bucket hc (he ▸ hb.pos))
    . exact .inr ⟨by omega, hnew.2, if_pos rfl⟩
  . intro q hq h0
    rcases List.mem_append.mp hq with hq | hq
    . exact .inl (.key hc (hpairs q hq) h0)
    . obtain rfl : q = ⟨key, val, kid, vid⟩ := by simpa using hq
      rcases hk.origin h0 with ⟨_, ho⟩ | ⟨_, hnew⟩
      . exact .inl ho
      . have hne : kid ≠ bid := by
          rcases hb.origin with he | hnew'
          . have := hold he
            omega
          . omega
        exact .inr ⟨hnew.1, hnew.2.trans (h2.trans h3), (if_neg hne).trans (if_pos rfl)⟩
  . intro q hq h0
    rcases List.mem_append.mp hq with hq | hq
    . exact .inl (.val hc (hpairs q hq) h0)
    . obtain rfl : q = ⟨key, val, kid, vid⟩ := by simpa using hq
      have hnew := hv.origin h0
      have hne : vid ≠ bid := by
        rcases hb.origin with he | hnew'
        . have := hold he
          omega
        . omega
      have hne' : vid ≠ kid := by
        rintro rfl
        rcases hk.origin h0 with ⟨_, ho⟩ | ⟨_, hnew'⟩
        . have := h.ids _ _ ho
          omega
        . omega
      exact .inr ⟨h1.trans_lt hnew.1, hnew.2.trans h3, (if_neg hne).trans (if_neg hne')⟩

theorem Cell.commit (h : Stored cfg g tbl b top) (hcell : Cell cfg g tbl key kept old)
    (hk : NewKey g tbl b top key ks kid fr b1 top1) (hv : NewVal b1 top1 val vs vid b2 top2)
    (hfits : (Pair.mk key val kid vid).Fits)
    (hsmall : bktSize (kept ++ [⟨key, val, kid, vid⟩]) ≤ cfg.maxPayload)
    (hb : NewBucket cfg g tbl (g.place cfg key) (kept ++ [⟨key, val, kid, vid⟩]) b2 top2 bid b3 top3) :
    Commit cfg g tbl (g.place cfg key) bid (kept ++ [⟨key, val, kid, vid⟩]) top top3 b b3 := by
  have hc := h.shape.place_in key
  have hgrown := hk.grown.trans hv.grown
  have hpairs : ∀ q ∈ kept, q ∈ tbl.pairs (g.place cfg key) :=
    fun q hq => (hcell.members q).mpr (.inl hq)
  have hkid : kid ≠ 0 → b3 kid = some key := by
    intro h0
    have hid : (∃ r, tbl.Owns g r kid ∧ r ≠ .bucket (g.place cfg key) ∧
        r ≠ .leaf (g.place cfg key).1) ∨ top < kid ∧ kid ≤ top2 := by
      have := hv.grown.top_le
      rcases hk.origin h0 with ⟨_, ho⟩ | ⟨_, hnew⟩
      . exact .inl ⟨_, ho, nofun, nofun⟩
      . exact .inr (by omega)
    have hle : kid ≤ top1 := by
      have := hk.grown.top_le
      rcases hk.origin h0 with ⟨_, ho⟩ | ⟨_, hnew⟩
      . have := h.ids _ _ ho
        omega
      . exact hnew.2
    rw [hb.apart h hgrown.top_le hc hid, hv.grown.same kid hle, hk.live h0]
  have hvid : vid ≠ 0 → b3 vid = some val := by
    intro h0
    have hnew := hv.origin h0
    have hle := hk.grown.top_le
    rw [hb.apart h hgrown.top_le hc (.inr (by omega)), hv.live h0]
  refine ⟨hc, hb.pos, hb.leaf_dir, hb.bucket, hsmall, ?_, ?_, ?_, ?_, ?_, ?_, hb.top_lt⟩
  . intro q hq
    rcases List.mem_append.mp hq with hq | hq
    . have hq' := h.sound _ hc q (hpairs q hq)
      exact { hq' with
        key_live := fun h0 => by
          have ho := Table.Owns.key hc (hpairs q hq) h0
          rw [hb.apart h hgrown.top_le hc (.inl ⟨_, ho, nofun, nofun⟩),
            hgrown.same _ (h.ids _ _ ho).2, hq'.key_live h0]
        val_live := fun h0 => by
          have ho := Table.Owns.val hc (hpairs q hq) h0
          rw [hb.apart h hgrown.top_le hc (.inl ⟨_, ho, nofun, nofun⟩),
            hgrown.same _ (h.ids _ _ ho).2, hq'.val_live h0] }
    . obtain rfl : q = ⟨key, val, kid, vid⟩ := by simpa using hq
      exact { hfits with key_live := hkid, val_live := hvid }
  . intro q hq
    rcases List.mem_append.mp hq with hq | hq
    . exact h.placed _ hc q (hpairs q hq)
    . obtain rfl : q = ⟨key, val, kid, vid⟩ := by simpa using hq
      rfl
  . rw [List.map_append, List.nodup_append]
    refine ⟨hcell.distinct, by simp, ?_⟩
    intro k hk l hl
    obtain ⟨q, hq, rfl⟩ := List.mem_map.mp hk
    obtain rfl : l = key := by simpa using hl
    exact hcell.others q hq
  . intro id hid hrole
    have hbid : id ≠ bid := by
      rintro rfl
      rcases hb.origin with he | hnew
      . have ho : tbl.Owns g (.bucket (g.place cfg key)) id := he ▸ .bucket hc (he ▸ hb.pos)
        exact hrole _ ho rfl
      . have := hgrown.top_le
        omega
    have hleaf : id ≠ tbl.leaf (g.place cfg key).1 := by
      rintro rfl
      exact hrole _ (.leaf hc.1) rfl
    rw [hb.same id hbid hleaf, hgrown.same id hid]
  . exact hcell.kept_new h hk hv hb
  . have := hgrown.top_le
    have := hb.top_le
    omega

-- The entry is committed.
def Committed (cfg : KvCfg) (g : Shape) (tbl : Table) (b : Blobs) (top : Nat) (lim : Nat × Nat)
    (c : Nat × Nat) (ps : List Pair) (s : World KvRam) : Prop :=
  ∃ bid b3 top3, Commit cfg g tbl c bid ps top top3 b b3 ∧ Sees b3 top3 lim [] [] s

theorem setCommit_spec (hH : ∀ w, H.holds w → plain.holds w) (h : Stored cfg g tbl b top)
    (hcell : Cell cfg g tbl key kept old)
    (hk : NewKey g tbl b top key ks kid fr b1 top1) (hv : NewVal b1 top1 val vs vid b2 top2)
    (hfits : (Pair.mk key val kid vid).Fits)
    (hsmall : bktSize (kept ++ [⟨key, val, kid, vid⟩]) ≤ cfg.maxPayload)
    (hdir : tbl.bid (g.place cfg key) = 0 → dir =
      dirImage kvhashDirMagic g.version 1 g.n fun i => tbl.bid ((g.place cfg key).1, i)) :
    Spec H (Sees b2 top2 lim dir (bktImage cfg kept))
      (setCommit cfg ⟨tbl.leaf (g.place cfg key).1, g.n, (g.place cfg key).2⟩
        (tbl.bid (g.place cfg key)) (bktSize kept) ((Pair.mk key val kid vid).image cfg))
      ⟨fun _ => Committed cfg g tbl b top lim (g.place cfg key) (kept ++ [⟨key, val, kid, vid⟩]),
        fun e s => e.Telling ∧ GrownTo b2 top2 lim [] [] s,
        fun s => GrownTo b2 top2 lim [] [] s ∨
          Committed cfg g tbl b top lim (g.place cfg key) (kept ++ [⟨key, val, kid, vid⟩]) s⟩ := by
  have hc := h.shape.place_in key
  have hlt := hv.grown.top_lt
  have hgrown := hk.grown.trans hv.grown
  have hcommit : ∀ bid b3 top3, NewBucket cfg g tbl (g.place cfg key)
      (kept ++ [⟨key, val, kid, vid⟩]) b2 top2 bid b3 top3 →
      Commit cfg g tbl (g.place cfg key) bid (kept ++ [⟨key, val, kid, vid⟩]) top top3 b b3 :=
    fun _ _ _ => hcell.commit h hk hv hfits hsmall
  generalize hnp : Pair.mk key val kid vid = np at *
  generalize hcc : g.place cfg key = c at *
  rw [setCommit]
  refine Spec.setBktBuf (bktImage cfg (kept ++ [np])) ?_ ?_
  . rintro _ ⟨rest, rfl⟩
    exact bktAppend_prefix cfg kept np rest
  refine Spec.bktBuf ?_
  rintro buf ⟨rest, rfl⟩
  have htake : (bktImage cfg (kept ++ [np]) ++ rest).take (bktSize kept + (np.image cfg).length) =
      bktImage cfg (kept ++ [np]) := by
    apply List.take_left'
    rw [bktImage_length, bktSize_append, np.image_length]
    simp [bktSize]
  rw [htake]
  refine Spec.ite (fun hbid => ?_) fun hbid => ?_
  . have hnew := h.sameBucket hc hgrown hbid (kept ++ [np])
    refine (kvUpdate_spec hH _ _).conseq (fun _ hs => hs) ?_ ?_ ?_
    . intro _ s hs
      exact ⟨_, _, _, hcommit _ _ _ hnew, hs.idle⟩
    . rintro e s ⟨he, hs⟩
      exact ⟨he, _, _, Grown.refl hlt, hs.idle⟩
    . rintro s (hs | hs)
      . exact .inl ⟨_, _, Grown.refl hlt, hs.idle⟩
      . exact .inr ⟨_, _, _, hcommit _ _ _ hnew, hs.idle⟩
  . have hbid : tbl.bid c = 0 := not_not.mp hbid
    refine bindFresh_spec hH hlt _ ?_ (fun e s he hs => ⟨he, hs.weaken⟩) fun s hs => .inl hs.weaken
    intro bid hid hid'
    have hbgrown : Grown b2 top2 (Function.update b2 bid (some (bktImage cfg (kept ++ [np])))) bid :=
      Grown.update ⟨by omega, hid', fun _ _ => rfl⟩ hid _
    refine Spec.setDirBuf (dirImage kvhashDirMagic g.version 1 g.n
      (Function.update (fun i => tbl.bid (c.1, i)) c.2 bid)) ?_ ?_
    . rw [hdir hbid]
      rintro _ ⟨rest, rfl⟩
      rw [dirSetChild_image hc.2]
      exact List.prefix_append _ _
    refine Spec.dirBuf ?_
    rintro _ ⟨drest, rfl⟩
    rw [List.take_left' (dirImage_length _ _ _ _ _)]
    have hnew := h.freshBucket hc hgrown hid hid' (kept ++ [np])
    refine (kvUpdate_spec hH _ _).conseq (fun _ hs => hs) ?_ ?_ ?_
    . intro _ s hs
      exact ⟨_, _, _, hcommit _ _ _ hnew, hs.idle⟩
    . rintro e s ⟨he, hs⟩
      exact ⟨he, _, _, hbgrown, hs.idle⟩
    . rintro s (hs | hs)
      . exact .inl ⟨_, _, hbgrown, hs.idle⟩
      . exact .inr ⟨_, _, _, hcommit _ _ _ hnew, hs.idle⟩

end Commit

/-! What is left of the old entry -/

-- From the table `tbl` the store has come to hold the table `tbl'`.
def Holding (cfg : KvCfg) (g : Shape) (tbl : Table) (b : Blobs) (top : Nat) (lim : Nat × Nat)
    (tbl' : Table) (s : World KvRam) : Prop :=
  ∃ b' top', Stored cfg g tbl' b' top' ∧ Moves g tbl b top tbl' b' top' ∧ Sees b' top' lim [] [] s

-- From the table `tbl` the store has come to hold the map `m`.
def Turned (cfg : KvCfg) (g : Shape) (tbl : Table) (b : Blobs) (top : Nat) (lim : Nat × Nat)
    (m : KvMap) (s : World KvRam) : Prop :=
  ∃ tbl', tbl'.map cfg g = m ∧ Holding cfg g tbl b top lim tbl' s

theorem GrownTo.turned {s : World KvRam} (h : Stored cfg g tbl b top)
    (hg : GrownTo b top lim dir bkt s) : Turned cfg g tbl b top lim (tbl.map cfg g) s := by
  obtain ⟨b', top', hg, hs⟩ := hg
  exact ⟨tbl, rfl, b', top', h.grown hg, hg.moves, hs.idle⟩

theorem Sees.turned {s : World KvRam} (h : Stored cfg g tbl b top) (hs : Sees b top lim dir bkt s) :
    Turned cfg g tbl b top lim (tbl.map cfg g) s :=
  GrownTo.turned h ⟨b, top, Grown.refl h.top_lt, hs⟩

theorem Commit.turned {c : Nat × Nat} {bid : Nat} {ps : List Pair} {m : KvMap} {s : World KvRam}
    (h : Stored cfg g tbl b top) (hcommit : Commit cfg g tbl c bid ps top top1 b b1)
    (hm : (tbl.put c bid ps).map cfg g = m) (hs : Sees b1 top1 lim dir bkt s) :
    Turned cfg g tbl b top lim m s :=
  ⟨_, hm, b1, top1, h.put hcommit, hcommit.moves, hs.idle⟩

theorem releaseOld_spec (hH : ∀ w, H.holds w → plain.holds w) {tbl' : Table} {id : Nat}
    (hid : id = 0 ∨ (∃ r, tbl.Owns g r id) ∧ ∀ r, ¬ tbl'.Owns g r id) :
    Spec H (Holding cfg g tbl b top lim tbl') (releasePart id)
      ⟨fun _ => Holding cfg g tbl b top lim tbl', fun _ _ => False,
        Holding cfg g tbl b top lim tbl'⟩ := by
  refine Spec.given fun b' => Spec.given fun top' => Spec.fact fun h' => Spec.fact fun hm => ?_
  have hpost : ∀ s, Sees b' top' lim [] [] s ∨ id ≠ 0 ∧ Either b' top' lim [] [] id none s →
      Holding cfg g tbl b top lim tbl' s := by
    rintro s (hs | ⟨h0, hs | hs⟩)
    . exact ⟨b', top', h', hm, hs⟩
    . exact ⟨b', top', h', hm, hs⟩
    . obtain ⟨⟨r, ho⟩, hno⟩ := hid.resolve_left h0
      have hother : ∀ i, i ≠ id → Function.update b' id none i = b' i :=
        fun i hi => Function.update_of_ne hi _ _
      refine ⟨_, top', ?_, ?_, hs⟩
      . exact h'.congr (fun r i hi => hother i fun he => hno r (he ▸ hi)) le_rfl h'.top_lt
      . exact ⟨hm.top_le, fun i hi hfree =>
          (hother i fun he => hfree r (he ▸ ho)).trans (hm.same i hi hfree), hm.apart⟩
  exact (releasePart_spec hH id).conseq (fun _ hs => hs) (fun _ => hpost) (fun _ _ h => h) hpost

theorem Committed.holding {c : Nat × Nat} {ps : List Pair} {s : World KvRam}
    (h : Stored cfg g tbl b top) (hs : Committed cfg g tbl b top lim c ps s) :
    ∃ bid b3 top3, Commit cfg g tbl c bid ps top top3 b b3 ∧
      Holding cfg g tbl b top lim (tbl.put c bid ps) s := by
  obtain ⟨bid, b3, top3, hcommit, hs⟩ := hs
  exact ⟨bid, b3, top3, hcommit, b3, top3, h.put hcommit, hcommit.moves, hs⟩

-- The map with the new entry.
theorem Cell.map_set {bid kid vid : Nat} (h : Stored cfg g tbl b top)
    (hcell : Cell cfg g tbl key kept old)
    (hcommit : Commit cfg g tbl (g.place cfg key) bid (kept ++ [⟨key, val, kid, vid⟩]) top top1 b b1) :
    (tbl.put (g.place cfg key) bid (kept ++ [⟨key, val, kid, vid⟩])).map cfg g =
      Function.update (tbl.map cfg g) key (some val) := by
  have hlook : lookup (kept ++ [⟨key, val, kid, vid⟩]) key = some val :=
    (lookup_iff hcommit.distinct).mpr ⟨⟨key, val, kid, vid⟩, by simp, rfl, rfl⟩
  rw [h.map_put hcommit.distinct ?_, hlook]
  intro q hq
  rw [hcell.members q, List.mem_append, List.mem_singleton]
  constructor
  . rintro (hkept | rfl)
    . exact .inl hkept
    . exact absurd rfl hq
  . rintro (hkept | hold)
    . exact .inl hkept
    . exact absurd (hcell.same q hold) hq

-- A blob of the old entry that the new one does not use.
theorem Commit.unused {c : Nat × Nat} {bid id : Nat} {ps : List Pair} {r : Role}
    (h : Stored cfg g tbl b top) (hcommit : Commit cfg g tbl c bid ps top top1 b b1)
    (ho : tbl.Owns g r id) (hno : ¬ (tbl.put c bid ps).Owns g r id) :
    ∀ r', ¬ (tbl.put c bid ps).Owns g r' id := by
  intro r' ho'
  obtain ⟨fresh, hfresh⟩ := hcommit.kept_of_owns
  rcases hfresh r' id ho' with hold | ⟨hnew, _⟩
  . exact hno (h.role_unique hold ho ▸ ho')
  . have := (h.ids r id ho).2
    omega

def setPost (cfg : KvCfg) (g : Shape) (tbl : Table) (b : Blobs) (top : Nat) (lim : Nat × Nat)
    (m' : KvMap) : Post (World KvRam) Errno Unit where
  ok _ := Turned cfg g tbl b top lim m'
  err e s := e.Telling ∧ Turned cfg g tbl b top lim (tbl.map cfg g) s
  cut s := Turned cfg g tbl b top lim (tbl.map cfg g) s ∨ Turned cfg g tbl b top lim m' s

/-! The whole call -/

section Set

variable (hH : ∀ w, H.holds w → plain.holds w)

include hH

-- The blobs of the old entry, 0 if there are none.
def oldKid (old : Option Pair) : Nat := (old.map Pair.kid).getD 0

def oldVid (old : Option Pair) : Nat := (old.map Pair.vid).getD 0

-- A blob that may be deleted: it was the map's and is not any more.
def Dropped (g : Shape) (tbl tbl' : Table) (id : Nat) : Prop :=
  id = 0 ∨ (∃ r, tbl.Owns g r id) ∧ ∀ r, ¬ tbl'.Owns g r id

omit hH in
theorem Cell.dropped {ks vs fr : Bool} {kid vid bid : Nat} (h : Stored cfg g tbl b top)
    (hcell : Cell cfg g tbl key kept old) (hk : NewKey g tbl b top key ks kid fr b1 top1)
    (hv : NewVal b1 top1 val vs vid b2 top2)
    (hcommit : Commit cfg g tbl (g.place cfg key) bid (kept ++ [⟨key, val, kid, vid⟩]) top top3 b b3) :
    (oldKid old ≠ kid →
      Dropped g tbl (tbl.put (g.place cfg key) bid (kept ++ [⟨key, val, kid, vid⟩])) (oldKid old)) ∧
      Dropped g tbl (tbl.put (g.place cfg key) bid (kept ++ [⟨key, val, kid, vid⟩])) (oldVid old) := by
  have hc := h.shape.place_in key
  have hstored := h.put hcommit
  cases hold : old with
  | none => exact ⟨fun _ => .inl rfl, .inl rfl⟩
  | some q =>
    have hq := (hcell.members q).mpr (.inr hold)
    have hqk := hcell.same q hold
    -- the pair of the key is the new one
    have hpair : ∀ p ∈ kept ++ [Pair.mk key val kid vid], p.key = key → p = ⟨key, val, kid, vid⟩ :=
      fun p hp hpk => eq_of_key hcommit.distinct hp (by simp) hpk
    constructor
    . intro hne
      by_cases h0 : q.kid = 0
      . exact .inl h0
      have ho : tbl.Owns g (.key key) q.kid := hqk ▸ .key hc hq h0
      refine .inr ⟨⟨_, ho⟩, hcommit.unused h ho fun ho' => ?_⟩
      obtain ⟨p, hp, hpk, hpid⟩ := hstored.pairs_of_owns_key ho'
      rw [put_pairs_self] at hp
      obtain rfl := hpair p hp hpk
      exact hne hpid.symm
    . by_cases h0 : q.vid = 0
      . exact .inl h0
      have ho : tbl.Owns g (.val key) q.vid := hqk ▸ .val hc hq h0
      refine .inr ⟨⟨_, ho⟩, hcommit.unused h ho fun ho' => ?_⟩
      obtain ⟨p, hp, hpk, hpid⟩ := hstored.pairs_of_owns_val ho'
      rw [put_pairs_self] at hp
      obtain rfl := hpair p hp hpk
      -- the value blob of the new entry is a new one
      have hpid : vid = q.vid := hpid
      have hle := (h.ids _ _ ho).2
      have hnew := hv.origin (hpid ▸ h0)
      have := hk.grown.top_le
      omega

-- After the commit.
theorem setRelease_spec {ks vs fr : Bool} {kid vid : Nat} (h : Stored cfg g tbl b top)
    (hcell : Cell cfg g tbl key kept old) (hk : NewKey g tbl b top key ks kid fr b1 top1)
    (hv : NewVal b1 top1 val vs vid b2 top2) :
    Spec H (Committed cfg g tbl b top lim (g.place cfg key) (kept ++ [⟨key, val, kid, vid⟩]))
      (setRelease (old.map Pair.replaced) kid)
      (setPost cfg g tbl b top lim (Function.update (tbl.map cfg g) key (some val))) := by
  refine Spec.pre (Spec.given fun bid => Spec.given fun b3 => Spec.given fun top3 =>
    Spec.fact fun hcommit => ?_) fun s hs => Committed.holding h hs
  obtain ⟨hkid, hvid⟩ := hcell.dropped h hk hv hcommit
  have hdone : ∀ s, Holding cfg g tbl b top lim
      (tbl.put (g.place cfg key) bid (kept ++ [⟨key, val, kid, vid⟩])) s →
      Turned cfg g tbl b top lim (Function.update (tbl.map cfg g) key (some val)) s :=
    fun s hs => ⟨_, hcell.map_set h hcommit, hs⟩
  have hk0 : ((old.map Pair.replaced).map Replaced.kid).getD 0 = oldKid old := by
    cases old <;> rfl
  have hv0 : ((old.map Pair.replaced).map Replaced.vid).getD 0 = oldVid old := by
    cases old <;> rfl
  rw [setRelease, hk0, hv0]
  refine Spec.bind (Spec.when (fun s hs => hs) fun hne =>
    releaseOld_spec hH (hkid (of_decide_eq_true hne))) (fun _ => ?_) (fun _ _ hf => hf.elim) ?_
  . exact (releaseOld_spec hH hvid).conseq (fun _ hs => hs) (fun _ => hdone) (fun _ _ hf => hf.elim)
      fun s hs => .inr (hdone s hs)
  . exact fun s hs => .inr (hdone s hs)

theorem setEntry_spec (h : Stored cfg g tbl b top) (hcell : Cell cfg g tbl key kept old)
    (p : Placement) (hpos : 0 < key.length) (hklt : key.length < 2 ^ 15)
    (hvlt : val.length < 2 ^ 15)
    (hdir : tbl.bid (g.place cfg key) = 0 → dir =
      dirImage kvhashDirMagic g.version 1 g.n fun i => tbl.bid ((g.place cfg key).1, i)) :
    Spec H (Sees b top lim dir (bktImage cfg kept))
      (setEntry cfg ⟨tbl.leaf (g.place cfg key).1, g.n, (g.place cfg key).2⟩ key val p
        (tbl.bid (g.place cfg key)) (bktSize kept) (old.map Pair.replaced))
      (setPost cfg g tbl b top lim (Function.update (tbl.map cfg g) key (some val))) := by
  have hfail : ∀ (e : Errno) s, e.Telling ∧ GrownTo b top lim [] [] s →
      e.Telling ∧ Turned cfg g tbl b top lim (tbl.map cfg g) s :=
    fun e s hs => ⟨hs.1, hs.2.turned h⟩
  rw [setEntry]
  refine Spec.ite (fun _ => ?_) fun hroom => ?_
  . exact Spec.fail fun s hs => ⟨⟨nofun, nofun⟩, hs.turned h⟩
  refine (setKeyBlob_spec hH h hcell p).bind ?_ (fun e s hs => ⟨hs.1, hs.2.turned h⟩)
    fun s hs => .inl (hs.turned h)
  rintro ⟨kid, fr⟩
  refine Spec.given fun b1 => Spec.given fun top1 => Spec.fact fun hk => ?_
  have hundo := hk.key_new
  refine (setValBlob_spec hH hk.grown.top_lt val p).attempt.bind ?_ (fun _ _ hf => hf.elim)
    fun s hs => .inl ((hs.trans hk.grown).turned h)
  rintro (e | vid)
  . -- no value blob
    refine Spec.pre (Spec.fact fun he => ?_) fun s hs =>
      (⟨hs.1, (hs.2.trans hk.grown).weaken⟩ : e.Telling ∧ GrownTo b top lim [] [] s)
    exact (setUndo_spec hH (.inl rfl) hundo he).conseq (fun _ hs => hs) (fun _ _ hf => hf.elim)
      hfail fun s hs => .inl (hs.turned h)
  refine Spec.given fun b2 => Spec.given fun top2 => Spec.fact fun hv => ?_
  have himage : entBytes key val p (keyFp cfg key) kid vid =
      (Pair.mk key val kid vid).image cfg := by
    rw [Pair.image, hk.placement hv]
  have hsmall := hk.small hv hroom
  have hfits := hk.fits h hv hpos hklt hvlt
  have hvundo := hk.val_new hv
  have hgrown := hk.grown.trans hv.grown
  show Spec H _ (Proc.attempt (setCommit cfg _ _ _ (entBytes key val p (keyFp cfg key) kid vid)) >>= _) _
  rw [himage]
  refine (setCommit_spec hH h hcell hk hv hfits hsmall hdir).attempt.bind ?_
    (fun _ _ hf => hf.elim) ?_
  . rintro (e | u)
    . refine Spec.pre (Spec.fact fun he => ?_) fun s hs =>
        (⟨hs.1, hs.2.trans hgrown⟩ : e.Telling ∧ GrownTo b top lim [] [] s)
      exact (setUndo_spec hH hvundo hundo he).conseq (fun _ hs => hs) (fun _ _ hf => hf.elim)
        hfail fun s hs => .inl (hs.turned h)
    . exact setRelease_spec hH h hcell hk hv
  . rintro s (hs | hs)
    . exact .inl ((hs.trans hgrown).turned h)
    . obtain ⟨bid, b3, top3, hcommit, hs⟩ := hs.holding h
      exact .inr ⟨_, hcell.map_set h hcommit, hs⟩

end Set

end KeyValueDb.Containers
