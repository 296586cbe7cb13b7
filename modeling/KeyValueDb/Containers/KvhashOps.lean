import KeyValueDb.Containers.KvhashSet

/-!
What get, set and del do to the map.
-/

namespace KeyValueDb.Containers

variable {cfg : KvCfg} {H : Hypothesis (World KvRam)} {g : Shape} {tbl : Table} {b : Blobs}
  {top : Nat} {lim : Nat × Nat} {dir bkt : List UInt8}

-- The directory that a cell is in.
def Table.leafImage (g : Shape) (tbl : Table) (t : Nat) : List UInt8 :=
  dirImage kvhashDirMagic g.version 1 g.n fun i => tbl.bid (t, i)

section Reads

variable (hH : ∀ w, H.holds w → telling.holds w)

include hH

theorem resolveLeaf_spec (h : Stored cfg g tbl b top) (key : List UInt8) :
    Spec H (Sees b top lim dir bkt) (resolveLeaf cfg g.root (cfg.hash key))
      (readPost b top lim (tbl.leafImage g (g.place cfg key).1) bkt
        (· = ⟨tbl.leaf (g.place cfg key).1, g.n, (g.place cfg key).2⟩)) := by
  have hin := h.shape.place_in key
  rw [resolveLeaf]
  rcases h.shape.levels with ⟨hd, _⟩ | ⟨hd, _⟩
  . have hplace : (g.place cfg key).1 = 0 := if_pos hd
    have hdir := h.leaf_dir 0 (hplace ▸ hin.1)
    rw [hplace, h.one_level hd]
    rw [h.one_level hd] at hdir
    refine Spec.reads (dirLoad_spec hH h.leafOk hdir) ?_ fun e s hs he => ⟨hs, he⟩
    rintro _ rfl
    exact Spec.ret fun s hs => ⟨rfl, hs⟩
  . have hplace : (g.place cfg key).1 = idxTop (cfg.hash key) g.fan := if_neg (by omega)
    refine Spec.reads (dirLoad_spec hH (h.topOk hd) (h.top_dir hd)) ?_ fun e s hs he => ⟨hs, he⟩
    rintro _ rfl
    refine Spec.dirBuf ?_
    rintro _ ⟨rest, rfl⟩
    rw [← hplace, dirChild_image hin.1 (h.leaf_lt hin.1)]
    refine Spec.ite (fun h0 => absurd h0 (h.leaf_pos hin.1)) fun _ => ?_
    refine Spec.reads (dirLoad_spec hH h.leafOk (h.leaf_dir _ hin.1)) ?_ fun e s hs he => ⟨hs, he⟩
    rintro _ rfl
    exact Spec.ret fun s hs => ⟨rfl, hs⟩

-- How a call that does not change the map ends: with an answer, or with an error that says that
-- something is not there, or because a read has failed, or because its arguments are bad.
def answerPost {α : Type} (b : Blobs) (top : Nat) (lim : Nat × Nat) (φ : α → Prop)
    (absent : Errno → Prop) (bad : Prop) : Post (World KvRam) Errno α where
  ok a s := φ a ∧ Sees b top lim [] [] s
  err e s := Sees b top lim [] [] s ∧ (absent e ∨ Failing e s ∨ e = Errno.EINVAL ∧ bad)
  cut _ := False

theorem kvhashGet_spec (h : Stored cfg g tbl b top) (key : List UInt8) (outSz : Nat) :
    Spec H (Sees b top lim dir bkt) (kvhashGet cfg g.root key outSz)
      (answerPost b top lim (fun f => ∃ v, tbl.map cfg g key = some v ∧ f = fetched outSz v)
        (fun e => e = Errno.ENOENT ∧ tbl.map cfg g key = none)
        (key.length = 0 ∨ 0xffff < key.length)) := by
  have hin := h.shape.place_in key
  have hfail : ∀ e s, Sees b top lim [] [] s → Failing e s →
      (answerPost b top lim (fun f => ∃ v, tbl.map cfg g key = some v ∧ f = fetched outSz v)
        (fun e => e = Errno.ENOENT ∧ tbl.map cfg g key = none)
        (key.length = 0 ∨ 0xffff < key.length)).err e s :=
    fun e s hs he => ⟨hs, .inr (.inl he)⟩
  rw [kvhashGet]
  refine Spec.ite (fun hbad => ?_) fun _ => Spec.ite (fun hlong => ?_) fun _ => ?_
  . exact Spec.fail fun s hs => ⟨hs.idle, .inr (.inr ⟨rfl, hbad⟩)⟩
  . exact Spec.fail fun s hs => ⟨hs.idle, .inl ⟨rfl, h.map_long hlong⟩⟩
  refine Spec.reads (resolveLeaf_spec hH h key) ?_ hfail
  rintro _ rfl
  refine Spec.dirBuf ?_
  rintro _ ⟨rest, rfl⟩
  rw [Table.leafImage, dirChild_image hin.2 (h.bid_lt hin)]
  refine Spec.ite (fun h0 => ?_) fun h0 => ?_
  . refine Spec.fail fun s hs => ⟨hs.idle, .inl ⟨rfl, ?_⟩⟩
    rw [Table.map_none, h.empty _ hin h0]
    simp
  have hb := h.bucket _ hin h0
  have hsmall : (bktImage cfg (tbl.pairs (g.place cfg key))).length ≤ cfg.maxPayload := by
    rw [bktImage_length]
    exact h.small _ hin
  refine Spec.reads (getBkt_spec hH hb hsmall) ?_ hfail
  rintro _ rfl
  refine Spec.bktBuf fun buf hbuf => ?_
  rw [bktImage_length]
  refine (bktFind_spec hH (h.sound _ hin) hbuf).bind ?_ ?_ fun _ hf => hf
  . intro hit
    refine Spec.fact ?_
    rintro ⟨pre, p, post, hps, hpk, rfl⟩
    have hshow : Shows cfg buf (0 + bktSize pre) p := by
      rw [Nat.zero_add]
      exact shows_split (hps ▸ hbuf)
    have hp : p ∈ tbl.pairs (g.place cfg key) := by simp [hps]
    refine (entValue_spec hH hshow (h.sound _ hin p hp) outSz).conseq (fun _ hs => hs) ?_
      (fun e s hs => hfail e s hs.1 hs.2) fun _ hf => hf
    rintro f s ⟨rfl, hs⟩
    exact ⟨⟨p.val, h.map_iff.mpr ⟨p, hp, hpk, rfl⟩, rfl⟩, hs.idle⟩
  . rintro e s (⟨rfl, hnone, hs⟩ | ⟨hs, he⟩)
    . exact ⟨hs.idle, .inl ⟨rfl, Table.map_none.mpr hnone⟩⟩
    . exact hfail e s hs he

end Reads

/-! Set -/

section Writes

variable {key val : List UInt8} {pre post : List Pair} {q : Pair}

-- The pair of a key is the only one with it.
theorem Stored.cell (h : Stored cfg g tbl b top)
    (hps : tbl.pairs (g.place cfg q.key) = pre ++ q :: post) :
    Cell cfg g tbl q.key (pre ++ post) (some q) := by
  have hdistinct := h.distinct _ (h.shape.place_in q.key)
  rw [hps, List.map_append, List.map_cons, List.nodup_middle, List.nodup_cons, ← List.map_append]
    at hdistinct
  refine ⟨fun r => ?_, fun r hr he => ?_, fun r hr => ?_, hdistinct.2⟩
  . rw [hps]
    simp only [List.mem_append, List.mem_cons, Option.mem_def, Option.some.injEq]
    constructor
    . rintro (hr | rfl | hr)
      . exact .inl (.inl hr)
      . exact .inr rfl
      . exact .inl (.inr hr)
    . rintro ((hr | hr) | rfl)
      . exact .inl hr
      . exact .inr (.inr hr)
      . exact .inr (.inl rfl)
  . exact hdistinct.1 (List.mem_map.mpr ⟨r, hr, he⟩)
  . rw [← Option.some.inj hr]

theorem Stored.cell_none (h : Stored cfg g tbl b top)
    (hnone : ∀ p ∈ tbl.pairs (g.place cfg key), p.key ≠ key) :
    Cell cfg g tbl key (tbl.pairs (g.place cfg key)) none :=
  ⟨fun r => by simp, hnone, nofun, h.distinct _ (h.shape.place_in key)⟩

-- Another value of the same length, in the blob of the old one.
theorem Stored.inPlace (h : Stored cfg g tbl b top)
    (hps : tbl.pairs (g.place cfg q.key) = pre ++ q :: post) (hv : q.vid ≠ 0)
    (hlen : q.val.length = val.length) :
    Commit cfg g tbl (g.place cfg q.key) (tbl.bid (g.place cfg q.key))
      (pre ++ { q with val := val } :: post) top top b (Function.update b q.vid (some val)) := by
  have hc := h.shape.place_in q.key
  have hq : q ∈ tbl.pairs (g.place cfg q.key) := by simp [hps]
  have ho : tbl.Owns g (.val q.key) q.vid := .val hc hq hv
  have hbid : tbl.bid (g.place cfg q.key) ≠ 0 := by
    intro h0
    rw [h.empty _ hc h0] at hq
    cases hq
  -- a blob in another role is another blob
  have hne : ∀ r id, tbl.Owns g r id → r ≠ .val q.key →
      Function.update b q.vid (some val) id = b id := by
    intro r id hr hrole
    refine Function.update_of_ne (fun he => hrole ?_) _ _
    subst he
    exact h.role_unique hr ho
  have hcell := h.cell hps
  have hmem : ∀ p ∈ pre ++ { q with val := val } :: post,
      p ∈ pre ++ post ∨ p = { q with val := val } := by
    intro p hp
    simp only [List.mem_append, List.mem_cons] at hp ⊢
    tauto
  have hold : ∀ p ∈ pre ++ post, p ∈ tbl.pairs (g.place cfg q.key) :=
    fun p hp => (hcell.members p).mpr (.inl hp)
  have himage : bktImage cfg (pre ++ { q with val := val } :: post) =
      bktImage cfg (tbl.pairs (g.place cfg q.key)) := by
    have hone : Pair.image cfg { q with val := val } = q.image cfg := by
      simp [Pair.image, Pair.placement, entBytes, hlen, hv]
    rw [hps, bktImage_append, bktImage_append, bktImage_cons, bktImage_cons, hone]
  have hsize : bktSize (pre ++ { q with val := val } :: post) =
      bktSize (tbl.pairs (g.place cfg q.key)) := by
    rw [← bktImage_length cfg, himage, bktImage_length]
  refine ⟨hc, hbid, ?_, ?_, ?_, ?_, ?_, ?_, ?_, ?_, le_rfl, h.top_lt⟩
  . rw [hne _ _ (.leaf hc.1) (by rintro ⟨⟩), h.leaf_dir _ hc.1, Function.update_eq_self]
  . rw [hne _ _ (.bucket hc hbid) (by rintro ⟨⟩), h.bucket _ hc hbid, himage]
  . rw [hsize]
    exact h.small _ hc
  . intro p hp
    rcases hmem p hp with hp | rfl
    . have hp' := h.sound _ hc p (hold p hp)
      exact { hp' with
        key_live := fun h0 => by
          rw [hne _ _ (.key hc (hold p hp) h0) (by rintro ⟨⟩), hp'.key_live h0]
        val_live := fun h0 => by
          rw [hne _ _ (.val hc (hold p hp) h0) fun he => hcell.others p hp (Role.val.inj he),
            hp'.val_live h0] }
    . have hq' := h.sound _ hc q hq
      exact
        { hq' with
          val_lt := hlen ▸ hq'.val_lt
          key_live := fun h0 => by
            rw [hne _ _ (.key hc hq h0) (by rintro ⟨⟩), hq'.key_live h0]
          val_live := fun _ => Function.update_self _ _ _ }
  . intro p hp
    rcases hmem p hp with hp | rfl
    . exact h.placed _ hc p (hold p hp)
    . rfl
  . have hdistinct := h.distinct _ hc
    rw [hps] at hdistinct
    simpa using hdistinct
  . intro id hid hrole
    refine Function.update_of_ne (fun he => ?_) _ _
    subst he
    exact hrole _ ho rfl
  . refine ⟨fun _ => none, .inl (.bucket hc hbid), ?_, ?_⟩
    . intro p hp h0
      rcases hmem p hp with hp | rfl
      . exact .inl (.key hc (hold p hp) h0)
      . have hkey : tbl.Owns g (.key q.key) q.kid := .key hc hq h0
        exact .inl hkey
    . intro p hp h0
      rcases hmem p hp with hp | rfl
      . exact .inl (.val hc (hold p hp) h0)
      . exact .inl ho

theorem Stored.inPlace_map (h : Stored cfg g tbl b top)
    (hps : tbl.pairs (g.place cfg q.key) = pre ++ q :: post)
    (hdistinct : ((pre ++ { q with val := val } :: post).map Pair.key).Nodup) :
    (tbl.put (g.place cfg q.key) (tbl.bid (g.place cfg q.key))
      (pre ++ { q with val := val } :: post)).map cfg g =
        Function.update (tbl.map cfg g) q.key (some val) := by
  have hlook : lookup (pre ++ { q with val := val } :: post) q.key = some val :=
    (lookup_iff hdistinct).mpr ⟨{ q with val := val }, by simp, rfl, rfl⟩
  rw [h.map_put hdistinct ?_, hlook]
  intro r hr
  rw [hps]
  simp only [List.mem_append, List.mem_cons]
  constructor
  . rintro (hm | rfl | hm)
    . exact .inl hm
    . exact absurd rfl hr
    . exact .inr (.inr hm)
  . rintro (hm | rfl | hm)
    . exact .inl hm
    . exact absurd rfl hr
    . exact .inr (.inr hm)

variable (hH : ∀ w, H.holds w → plain.holds w)

include hH

theorem setInBucket_spec (h : Stored cfg g tbl b top) (p : Placement) (hpos : 0 < key.length)
    (hklt : key.length < 2 ^ 15) (hvlt : val.length < 2 ^ 15)
    (hbid : tbl.bid (g.place cfg key) ≠ 0) :
    Spec H (Sees b top lim dir bkt)
      (setInBucket cfg ⟨tbl.leaf (g.place cfg key).1, g.n, (g.place cfg key).2⟩ key val p
        (tbl.bid (g.place cfg key)))
      (setPost cfg g tbl b top lim (Function.update (tbl.map cfg g) key (some val))) := by
  have hin := h.shape.place_in key
  have htell : ∀ w, H.holds w → telling.holds w := fun w hw => plain_telling (hH w hw)
  have hfail : ∀ e s, Sees b top lim [] [] s → Failing e s →
      (setPost cfg g tbl b top lim (Function.update (tbl.map cfg g) key (some val))).err e s :=
    fun e s hs he => ⟨⟨he.noent, he.nodata⟩, hs.turned h⟩
  have hsmall : (bktImage cfg (tbl.pairs (g.place cfg key))).length ≤ cfg.maxPayload := by
    rw [bktImage_length]
    exact h.small _ hin
  rw [setInBucket]
  refine Spec.reads (getBkt_spec htell (h.bucket _ hin hbid) hsmall) ?_ hfail
  rintro _ rfl
  refine Spec.bktBuf fun buf hbuf => ?_
  rw [bktImage_length]
  refine (bktFind_spec htell (h.sound _ hin) hbuf).attempt.bind ?_ (fun _ _ hf => hf.elim)
    fun _ hf => hf.elim
  rintro (e | ⟨off, old⟩)
  . -- the key is not in the bucket
    refine Spec.ite (fun he => ?_) fun he => ?_
    . refine Spec.pre (Spec.fact fun hnone => ?_) (P := fun s =>
        (∀ p ∈ tbl.pairs (g.place cfg key), p.key ≠ key) ∧
          Sees b top lim [] (bktImage cfg (tbl.pairs (g.place cfg key))) s) ?_
      . exact setEntry_spec hH h (h.cell_none hnone) p hpos hklt hvlt fun h0 => absurd h0 hbid
      . rintro s (⟨_, hnone, hs⟩ | ⟨_, hf⟩)
        . exact ⟨hnone, hs⟩
        . exact absurd he hf.noent
    . refine Spec.fail fun s hs => ?_
      rcases hs with ⟨hno, _⟩ | ⟨hs, hf⟩
      . exact absurd hno he
      . exact hfail e s hs hf
  . refine Spec.fact ?_
    rintro ⟨pre, q, post, hps, rfl, hhit⟩
    obtain ⟨rfl, rfl⟩ := Prod.mk.inj hhit
    rw [Nat.zero_add]
    have hshow := shows_split (hps ▸ hbuf)
    have hq : q ∈ tbl.pairs (g.place cfg q.key) := by simp [hps]
    have hfits := (h.sound _ hin q hq).toFits
    simp only [hshow.valId hfits, hshow.keyId hfits]
    refine Spec.ite (fun hsame => ?_) fun _ => ?_
    . -- the value blob is rewritten
      have hv : q.vid ≠ 0 := by simpa [Pair.ent] using hsame.2.1
      rw [if_neg hv]
      have hcommit := h.inPlace hps hv hsame.2.2.2
      have hdone : ∀ {dir bkt : List UInt8} (s : World KvRam),
          Sees (Function.update b q.vid (some val)) top lim dir bkt s →
          Turned cfg g tbl b top lim (Function.update (tbl.map cfg g) q.key (some val)) s :=
        fun s hs => hcommit.turned h (h.inPlace_map hps hcommit.distinct) hs
      refine (kvUpdate_spec hH _ _).conseq (fun _ hs => hs) (fun _ => hdone) ?_ ?_
      . rintro e s ⟨he, hs⟩
        exact ⟨he, hs.turned h⟩
      . rintro s (hs | hs)
        . exact .inl (hs.turned h)
        . exact .inr (hdone s hs)
    . -- the old entry makes room for the new one
      refine Spec.setBktBuf (bktImage cfg (pre ++ post)) ?_ ?_
      . rw [hps]
        rintro _ ⟨rest, rfl⟩
        obtain ⟨rest', hrest'⟩ := bktDrop_eq cfg pre q post rest
        exact ⟨rest', hrest'.symm⟩
      have hused : bktSize (tbl.pairs (g.place cfg q.key)) - (q.ent (bktSize pre)).len =
          bktSize (pre ++ post) := by
        rw [hps, bktSize_append, bktSize_cons, bktSize_append]
        show _ - q.size = _
        omega
      rw [hused]
      exact setEntry_spec hH h (h.cell hps) p hpos hklt hvlt fun h0 => absurd h0 hbid

-- There is no bucket yet.
theorem setFresh_spec (h : Stored cfg g tbl b top) (p : Placement) (hpos : 0 < key.length)
    (hklt : key.length < 2 ^ 15) (hvlt : val.length < 2 ^ 15)
    (h0 : tbl.bid (g.place cfg key) = 0) :
    Spec H (Sees b top lim (tbl.leafImage g (g.place cfg key).1) bkt)
      (setEntry cfg ⟨tbl.leaf (g.place cfg key).1, g.n, (g.place cfg key).2⟩ key val p 0 0 none)
      (setPost cfg g tbl b top lim (Function.update (tbl.map cfg g) key (some val))) := by
  have hempty := h.empty _ (h.shape.place_in key) h0
  have hcell : Cell cfg g tbl key [] none := by
    rw [← hempty]
    exact h.cell_none (by simp [hempty])
  have hentry : Spec H (Sees b top lim (tbl.leafImage g (g.place cfg key).1) (bktImage cfg []))
      (setEntry cfg ⟨tbl.leaf (g.place cfg key).1, g.n, (g.place cfg key).2⟩ key val p
        (tbl.bid (g.place cfg key)) (bktSize []) (Option.map Pair.replaced none))
      (setPost cfg g tbl b top lim (Function.update (tbl.map cfg g) key (some val))) :=
    setEntry_spec hH h hcell p hpos hklt hvlt fun _ => rfl
  rw [h0] at hentry
  exact hentry.pre fun s hs => hs.weaken List.prefix_rfl List.nil_prefix

theorem kvhashSet_spec (h : Stored cfg g tbl b top) (key val : List UInt8) :
    Spec H (Sees b top lim dir bkt) (kvhashSet cfg g.root key val)
      (setPost cfg g tbl b top lim (Function.update (tbl.map cfg g) key (some val))) := by
  have hin := h.shape.place_in key
  have htell : ∀ w, H.holds w → telling.holds w := fun w hw => plain_telling (hH w hw)
  rw [kvhashSet]
  refine Spec.ite (fun _ => ?_) fun harg => Spec.ite (fun _ => ?_) fun hlong => ?_
  . exact Spec.fail fun s hs => ⟨⟨nofun, nofun⟩, hs.turned h⟩
  . exact Spec.fail fun s hs => ⟨⟨nofun, nofun⟩, hs.turned h⟩
  have hpos : 0 < key.length := by omega
  have hklt : key.length < 2 ^ 15 := by
    simp only [entLenMask] at hlong
    omega
  have hvlt : val.length < 2 ^ 15 := by
    simp only [entLenMask] at hlong
    omega
  refine Spec.reads (resolveLeaf_spec htell h key) ?_ fun e s hs he =>
    ⟨⟨he.noent, he.nodata⟩, hs.turned h⟩
  rintro _ rfl
  refine Spec.ram fun r hr _ => ?_
  have hbid : dirChild r.dirBuf (g.place cfg key).2 = tbl.bid (g.place cfg key) := by
    obtain ⟨rest, hrest⟩ := hr
    rw [← hrest, Table.leafImage, dirChild_image hin.2 (h.bid_lt hin)]
  refine Spec.ite (fun _ => ?_) fun _ => ?_
  . exact Spec.fail fun s hs => ⟨⟨nofun, nofun⟩, hs.turned h⟩
  rw [hbid]
  refine Spec.ite (fun h0 => ?_) fun h0 => ?_
  . exact setFresh_spec hH h _ hpos hklt hvlt h0
  . exact setInBucket_spec hH h _ hpos hklt hvlt h0

/-! Del -/

def delPost (cfg : KvCfg) (g : Shape) (tbl : Table) (b : Blobs) (top : Nat) (lim : Nat × Nat)
    (key : List UInt8) : Post (World KvRam) Errno Unit where
  ok _ s := tbl.map cfg g key ≠ none ∧
    Turned cfg g tbl b top lim (Function.update (tbl.map cfg g) key none) s
  err e s := (e.Telling ∨ e = Errno.ENOENT ∧ tbl.map cfg g key = none) ∧
    Turned cfg g tbl b top lim (tbl.map cfg g) s
  cut s := Turned cfg g tbl b top lim (tbl.map cfg g) s ∨
    Turned cfg g tbl b top lim (Function.update (tbl.map cfg g) key none) s

omit hH in
theorem Stored.dropped (h : Stored cfg g tbl b top)
    (hps : tbl.pairs (g.place cfg q.key) = pre ++ q :: post) :
    Commit cfg g tbl (g.place cfg q.key) (tbl.bid (g.place cfg q.key)) (pre ++ post) top top b
      (Function.update b (tbl.bid (g.place cfg q.key)) (some (bktImage cfg (pre ++ post)))) := by
  have hc := h.shape.place_in q.key
  have hcell := h.cell hps
  have hpairs : ∀ p ∈ pre ++ post, p ∈ tbl.pairs (g.place cfg q.key) :=
    fun p hp => (hcell.members p).mpr (.inl hp)
  have hbid : tbl.bid (g.place cfg q.key) ≠ 0 := by
    intro h0
    have hempty := h.empty _ hc h0
    rw [hps] at hempty
    simp at hempty
  have hb := h.sameBucket hc (Grown.refl h.top_lt) hbid (pre ++ post)
  refine ⟨hc, hbid, hb.leaf_dir, hb.bucket, ?_, ?_, ?_, hcell.distinct, ?_, ?_, le_rfl, h.top_lt⟩
  . have hsmall := h.small _ hc
    rw [hps, bktSize_append, bktSize_cons] at hsmall
    rw [bktSize_append]
    omega
  . intro p hp
    have hp' := h.sound _ hc p (hpairs p hp)
    exact { hp' with
      key_live := fun h0 => by
        rw [hb.apart h le_rfl hc (.inl ⟨_, .key hc (hpairs p hp) h0, nofun, nofun⟩),
          hp'.key_live h0]
      val_live := fun h0 => by
        rw [hb.apart h le_rfl hc (.inl ⟨_, .val hc (hpairs p hp) h0, nofun, nofun⟩),
          hp'.val_live h0] }
  . exact fun p hp => h.placed _ hc p (hpairs p hp)
  . intro id hid hrole
    refine Function.update_of_ne (fun he => ?_) _ _
    subst he
    exact hrole _ (.bucket hc hbid) rfl
  . exact ⟨fun _ => none, .inl (.bucket hc hbid), fun p hp h0 => .inl (.key hc (hpairs p hp) h0),
      fun p hp h0 => .inl (.val hc (hpairs p hp) h0)⟩

omit hH in
theorem Stored.dropped_map (h : Stored cfg g tbl b top)
    (hps : tbl.pairs (g.place cfg q.key) = pre ++ q :: post) :
    (tbl.put (g.place cfg q.key) (tbl.bid (g.place cfg q.key)) (pre ++ post)).map cfg g =
      Function.update (tbl.map cfg g) q.key none := by
  have hcell := h.cell hps
  have hlook : lookup (pre ++ post) q.key = none := lookup_none.mpr hcell.others
  rw [h.map_put hcell.distinct ?_, hlook]
  intro r hr
  rw [hcell.members r]
  constructor
  . exact .inl
  . rintro (hm | hm)
    . exact hm
    . exact absurd (hcell.same r hm) hr

-- The blobs of the entry that is gone.
omit hH in
theorem Stored.dropped_parts (h : Stored cfg g tbl b top)
    (hps : tbl.pairs (g.place cfg q.key) = pre ++ q :: post) :
    Dropped g tbl (tbl.put (g.place cfg q.key) (tbl.bid (g.place cfg q.key)) (pre ++ post)) q.kid ∧
      Dropped g tbl (tbl.put (g.place cfg q.key) (tbl.bid (g.place cfg q.key)) (pre ++ post))
        q.vid := by
  have hc := h.shape.place_in q.key
  have hq : q ∈ tbl.pairs (g.place cfg q.key) := by simp [hps]
  have hcell := h.cell hps
  have hcommit := h.dropped hps
  have hstored := h.put hcommit
  constructor
  . by_cases h0 : q.kid = 0
    . exact .inl h0
    have ho : tbl.Owns g (.key q.key) q.kid := .key hc hq h0
    refine .inr ⟨⟨_, ho⟩, hcommit.unused h ho fun ho' => ?_⟩
    obtain ⟨p, hp, hpk, _⟩ := hstored.pairs_of_owns_key ho'
    rw [put_pairs_self] at hp
    exact hcell.others p hp hpk
  . by_cases h0 : q.vid = 0
    . exact .inl h0
    have ho : tbl.Owns g (.val q.key) q.vid := .val hc hq h0
    refine .inr ⟨⟨_, ho⟩, hcommit.unused h ho fun ho' => ?_⟩
    obtain ⟨p, hp, hpk, _⟩ := hstored.pairs_of_owns_val ho'
    rw [put_pairs_self] at hp
    exact hcell.others p hp hpk

theorem kvhashDel_spec (h : Stored cfg g tbl b top) (key : List UInt8) :
    Spec H (Sees b top lim dir bkt) (kvhashDel cfg g.root key)
      (delPost cfg g tbl b top lim key) := by
  have hin := h.shape.place_in key
  have htell : ∀ w, H.holds w → telling.holds w := fun w hw => plain_telling (hH w hw)
  have hfail : ∀ e s, Sees b top lim [] [] s → Failing e s →
      (delPost cfg g tbl b top lim key).err e s :=
    fun e s hs he => ⟨.inl ⟨he.noent, he.nodata⟩, hs.turned h⟩
  rw [kvhashDel]
  refine Spec.ite (fun _ => ?_) fun _ => Spec.ite (fun hlong => ?_) fun _ => ?_
  . exact Spec.fail fun s hs => ⟨.inl ⟨nofun, nofun⟩, hs.turned h⟩
  . exact Spec.fail fun s hs => ⟨.inr ⟨rfl, h.map_long hlong⟩, hs.turned h⟩
  refine Spec.reads (resolveLeaf_spec htell h key) ?_ hfail
  rintro _ rfl
  refine Spec.dirBuf ?_
  rintro _ ⟨rest, rfl⟩
  rw [Table.leafImage, dirChild_image hin.2 (h.bid_lt hin)]
  refine Spec.ite (fun h0 => ?_) fun h0 => ?_
  . refine Spec.fail fun s hs => ⟨.inr ⟨rfl, ?_⟩, hs.turned h⟩
    rw [Table.map_none, h.empty _ hin h0]
    simp
  have hsmall : (bktImage cfg (tbl.pairs (g.place cfg key))).length ≤ cfg.maxPayload := by
    rw [bktImage_length]
    exact h.small _ hin
  refine Spec.reads (getBkt_spec htell (h.bucket _ hin h0) hsmall) ?_ hfail
  rintro _ rfl
  refine Spec.bktBuf fun buf hbuf => ?_
  rw [bktImage_length]
  refine (bktFind_spec htell (h.sound _ hin) hbuf).bind ?_ ?_ fun _ hf => hf.elim
  . rintro ⟨off, e⟩
    refine Spec.fact ?_
    rintro ⟨pre, q, post, hps, rfl, hhit⟩
    obtain ⟨rfl, rfl⟩ := Prod.mk.inj hhit
    rw [Nat.zero_add]
    have hshow := shows_split (hps ▸ hbuf)
    have hq : q ∈ tbl.pairs (g.place cfg q.key) := by simp [hps]
    have hfits := (h.sound _ hin q hq).toFits
    have hsome : tbl.map cfg g q.key ≠ none := by
      rw [h.map_iff.mpr ⟨q, hq, rfl, rfl⟩]
      nofun
    have hcommit := h.dropped hps
    obtain ⟨hkid, hvid⟩ := h.dropped_parts hps
    have hdone : ∀ s, Holding cfg g tbl b top lim
        (tbl.put (g.place cfg q.key) (tbl.bid (g.place cfg q.key)) (pre ++ post)) s →
        Turned cfg g tbl b top lim (Function.update (tbl.map cfg g) q.key none) s :=
      fun s hs => ⟨_, h.dropped_map hps, hs⟩
    rw [hshow.keyId hfits, hshow.valId hfits]
    refine Spec.setBktBuf (bktImage cfg (pre ++ post)) ?_ ?_
    . rw [hps]
      rintro _ ⟨rest, rfl⟩
      obtain ⟨rest', hrest'⟩ := bktDrop_eq cfg pre q post rest
      exact ⟨rest', hrest'.symm⟩
    refine Spec.bktBuf ?_
    rintro _ ⟨tail, rfl⟩
    have htake : (bktImage cfg (pre ++ post) ++ tail).take
        (bktSize (tbl.pairs (g.place cfg q.key)) - (q.ent (bktSize pre)).len) =
          bktImage cfg (pre ++ post) := by
      apply List.take_left'
      rw [bktImage_length, hps, bktSize_append, bktSize_append, bktSize_cons]
      show _ = _ - q.size
      omega
    rw [htake]
    have hheld : ∀ {dir bkt : List UInt8} (s : World KvRam),
        Sees (Function.update b (tbl.bid (g.place cfg q.key)) (some (bktImage cfg (pre ++ post))))
          top lim dir bkt s → Holding cfg g tbl b top lim
            (tbl.put (g.place cfg q.key) (tbl.bid (g.place cfg q.key)) (pre ++ post)) s :=
      fun s hs => ⟨_, top, h.put hcommit, hcommit.moves, hs.idle⟩
    refine (kvUpdate_spec hH _ _).bind (fun _ => ?_) ?_ ?_
    . refine Spec.pre ?_ hheld
      refine (releaseOld_spec hH hkid).bind (fun _ => ?_) (fun _ _ hf => hf.elim)
        fun s hs => .inr (hdone s hs)
      exact (releaseOld_spec hH hvid).conseq (fun _ hs => hs) (fun _ s hs => ⟨hsome, hdone s hs⟩)
        (fun _ _ hf => hf.elim) fun s hs => .inr (hdone s hs)
    . rintro e s ⟨he, hs⟩
      exact ⟨.inl he, hs.turned h⟩
    . rintro s (hs | hs)
      . exact .inl (hs.turned h)
      . exact .inr (hdone s (hheld s hs))
  . rintro e s (⟨rfl, hnone, hs⟩ | ⟨hs, he⟩)
    . exact ⟨.inr ⟨rfl, Table.map_none.mpr hnone⟩, hs.turned h⟩
    . exact hfail e s hs he

end Writes

end KeyValueDb.Containers
