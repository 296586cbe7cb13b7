import KeyValueDb.Containers.KvhashRuns

/-!
Walking a map that changes between the calls.
-/

namespace KeyValueDb.Containers

-- The buffers of a walk, and the calls that come before its call of next number `i`.
structure MapWalk where
  koutSz : Nat
  voutSz : Nat
  between : Nat → List KvCall

namespace MapWalk

variable (cfg : KvCfg) (root : Nat) (wk : MapWalk)

-- A call of next whose reads do not fail.
def nextCall (cursor : List UInt8) : KvCall := ⟨.next cursor wk.koutSz wk.voutSz, [], [], []⟩

-- The key that is passed back.
def passBack (cursor : List UInt8) : KvReply → List UInt8
  | .ok (.entry (.entry key _)) => key
  | _ => cursor

-- The store and the cursor after `i` calls of next.
def after (w : World KvRam) : Nat → World KvRam × List UInt8
  | 0 => (w, [])
  | i + 1 =>
    let s := after w i
    let r := kvStep cfg root (runKv cfg root s.1 (wk.between i)).2 (wk.nextCall s.2)
    (r.2, passBack s.2 r.1.reply)

-- The store that call `i` meets, its cursor, and its reply.
def meets (w : World KvRam) (i : Nat) : World KvRam :=
  (runKv cfg root (wk.after cfg root w i).1 (wk.between i)).2

def cursor (w : World KvRam) (i : Nat) : List UInt8 := (wk.after cfg root w i).2

def reply (w : World KvRam) (i : Nat) : KvReply :=
  (kvStep cfg root (wk.meets cfg root w i) (wk.nextCall (wk.cursor cfg root w i))).1.reply

-- The buffers take every key and every value, and no write between the calls fails but leaves its blob
-- unchanged.
structure Fair (w : World KvRam) : Prop where
  key_room : entLenMask ≤ wk.koutSz
  val_room : entLenMask ≤ wk.voutSz
  plain : ∀ i, ∀ r ∈ (runKv cfg root (wk.after cfg root w i).1 (wk.between i)).1, r.Plain

-- The walk ends. What it returns ascends, with the values of the moment, and leaves out no key that was
-- there at every call.
structure Enumerates (cmp : List UInt8 → List UInt8 → Ordering) (w : World KvRam) (n : Nat)
    (keys vals : Nat → List UInt8) : Prop where
  entries : ∀ i < n, wk.reply cfg root w i = .ok (.entry (.entry (keys i) (vals i)))
  ends : wk.reply cfg root w n = .err Errno.ENODATA
  ascending : ∀ i j, i < j → j < n → cmp (keys i) (keys j) = .lt
  current : ∀ i < n, kvSeen cfg root (wk.meets cfg root w i) (keys i) = some (vals i)
  once : ∀ k, (∀ i ≤ n, kvSeen cfg root (wk.meets cfg root w i) k ≠ none) →
    ∃ i, (i < n ∧ keys i = k) ∧ ∀ j, j < n ∧ keys j = k → j = i

end MapWalk

-- The successor of a cursor, whether it is in the map or not.
def Succeeds (cmp : List UInt8 → List UInt8 → Ordering) (m : KvMap) (cursor : List UInt8)
    (koutSz voutSz : Nat) (r : KvReply) : Prop :=
  (∃ k v, LeastOf cmp (Above cmp m cursor) k ∧ m k = some v ∧
      r = .ok (.entry (successor koutSz voutSz k v))) ∨
    r = .err Errno.ENODATA ∧ ∀ k, ¬ Above cmp m cursor k

variable {cfg : KvCfg} {g : Shape} {m : KvMap} {w : World KvRam} {root : Nat} {wk : MapWalk}

theorem next_reply (h : HoldsMap cfg g m w) {cursor : List UInt8} (hlen : cursor.length ≤ 0xffff)
    (koutSz voutSz : Nat) :
    Succeeds (keyCmp cfg g) m cursor koutSz voutSz
        (kvStep cfg g.root w ⟨.next cursor koutSz voutSz, [], [], []⟩).1.reply ∧
      HoldsMap cfg g m (kvStep cfg g.root w ⟨.next cursor koutSz voutSz, [], [], []⟩).2 := by
  obtain ⟨tbl, hstored, rfl⟩ := h
  have hpost := (kvhashNext_views cursor koutSz voutSz).silent.holds
    (kvhashNext_spec (fun _ hs => hs) hstored cursor koutSz voutSz)
  have hrun : (KvOp.next cursor koutSz voutSz).run cfg g.root
      (w.enterKv ⟨.next cursor koutSz voutSz, [], [], []⟩) =
        Proc.step (kvhashNext cfg g.root cursor koutSz voutSz w.still)
          fun x s => (.ok (.entry x), s) := rfl
  rw [kvStep, hrun]
  generalize kvhashNext cfg g.root cursor koutSz voutSz w.still = r at hpost
  obtain ⟨o, s⟩ := r
  obtain ⟨hpost, hno⟩ := hpost
  cases o with
  | ok x =>
    obtain ⟨⟨k, v, hl, hv, rfl⟩, hs⟩ := hpost
    exact ⟨.inl ⟨k, v, hl, hv, rfl⟩, hs.holdsMap hstored⟩
  | err e =>
    obtain ⟨hs, hcase⟩ := hpost
    refine ⟨?_, hs.holdsMap hstored⟩
    rcases hcase with ⟨rfl, hnone⟩ | hf | ⟨_, hbad⟩
    . exact .inr ⟨rfl, hnone⟩
    . exact absurd hf (hno e)
    . omega
  | cut => exact hpost.elim

theorem HoldsMap.seen (h : HoldsMap cfg g m w) : kvSeen cfg g.root w = m := by
  obtain ⟨tbl, hstored, rfl⟩ := h
  exact hstored.seen

-- The keys and the values that a map can hold.
theorem HoldsMap.sizes (h : HoldsMap cfg g m w) {k v : List UInt8} (hv : m k = some v) :
    k ≠ [] ∧ k.length ≤ entLenMask ∧ v.length ≤ entLenMask := by
  obtain ⟨tbl, hstored, rfl⟩ := h
  obtain ⟨p, hp, rfl, rfl⟩ := hstored.map_iff.mp hv
  have hsound := hstored.sound _ (hstored.shape.place_in p.key) p hp
  have h1 := hsound.key_lt
  have h2 := hsound.val_lt
  refine ⟨List.ne_nil_of_length_pos hsound.key_pos, ?_, ?_⟩
  all_goals
    simp only [entLenMask]
    omega

theorem runKv_holds (cs : List KvCall) (h : HoldsMap cfg g m w)
    (hp : ∀ r ∈ (runKv cfg g.root w cs).1, r.Plain) :
    ∃ m', HoldsMap cfg g m' (runKv cfg g.root w cs).2 := by
  induction cs generalizing m w with
  | nil => exact ⟨m, h⟩
  | cons c cs ih =>
    obtain ⟨m1, _, h1⟩ := kvStep_holds h (hp _ List.mem_cons_self)
    exact ih h1 fun r hr => hp r (List.mem_cons_of_mem _ hr)

/-! A walk through a map -/

namespace MapWalk

-- What each call of next is told of the map it meets.
theorem step (hf : wk.Fair cfg g.root w) {i : Nat}
    (h : ∃ m, HoldsMap cfg g m (wk.after cfg g.root w i).1)
    (hlen : (wk.cursor cfg g.root w i).length ≤ entLenMask) :
    ∃ m, HoldsMap cfg g m (wk.meets cfg g.root w i) ∧
      HoldsMap cfg g m (wk.after cfg g.root w (i + 1)).1 ∧
      ((∃ k v, LeastOf (keyCmp cfg g) (Above (keyCmp cfg g) m (wk.cursor cfg g.root w i)) k ∧
          m k = some v ∧ wk.reply cfg g.root w i = .ok (.entry (.entry k v))) ∨
        wk.reply cfg g.root w i = .err Errno.ENODATA ∧
          ∀ k, ¬ Above (keyCmp cfg g) m (wk.cursor cfg g.root w i) k) := by
  obtain ⟨m0, h0⟩ := h
  obtain ⟨m, hm⟩ := runKv_holds (wk.between i) h0 (hf.plain i)
  simp only [entLenMask] at hlen
  have hshort : (wk.cursor cfg g.root w i).length ≤ 0xffff := by omega
  obtain ⟨hreply, hnext⟩ := next_reply hm hshort wk.koutSz wk.voutSz
  refine ⟨m, hm, hnext, ?_⟩
  rcases hreply with ⟨k, v, hl, hv, hr⟩ | hend
  . obtain ⟨_, hk, hv'⟩ := hm.sizes hv
    have hroom : successor wk.koutSz wk.voutSz k v = .entry k v := by
      have h1 := hf.key_room
      have h2 := hf.val_room
      exact if_neg (by omega)
    rw [hroom] at hr
    exact .inl ⟨k, v, hl, hv, hr⟩
  . exact .inr hend

theorem holds (hf : wk.Fair cfg g.root w) (h : HoldsMap cfg g m w) (i : Nat) :
    (∃ m, HoldsMap cfg g m (wk.after cfg g.root w i).1) ∧
      (wk.cursor cfg g.root w i).length ≤ entLenMask := by
  induction i with
  | zero => exact ⟨⟨m, h⟩, Nat.zero_le _⟩
  | succ i ih =>
    obtain ⟨m', hm, hnext, hreply⟩ := step hf ih.1 ih.2
    refine ⟨⟨m', hnext⟩, ?_⟩
    show (passBack (wk.cursor cfg g.root w i) (wk.reply cfg g.root w i)).length ≤ entLenMask
    rcases hreply with ⟨k, v, _, hv, hr⟩ | ⟨hr, _⟩
    . rw [hr]
      exact (hm.sizes hv).2.1
    . rw [hr]
      exact ih.2

-- The key of a reply.
def found : KvReply → Option (List UInt8)
  | .ok (.entry (.entry key _)) => some key
  | _ => none

theorem told (hf : wk.Fair cfg g.root w) (h : HoldsMap cfg g m w) (i : Nat) :
    (∃ k v, LeastOf (keyCmp cfg g) (Above (keyCmp cfg g)
          (kvSeen cfg g.root (wk.meets cfg g.root w i)) (wk.cursor cfg g.root w i)) k ∧
        kvSeen cfg g.root (wk.meets cfg g.root w i) k = some v ∧
        k ≠ [] ∧ k.length ≤ entLenMask ∧
        wk.reply cfg g.root w i = .ok (.entry (.entry k v))) ∨
      wk.reply cfg g.root w i = .err Errno.ENODATA ∧
        ∀ k, ¬ Above (keyCmp cfg g) (kvSeen cfg g.root (wk.meets cfg g.root w i))
          (wk.cursor cfg g.root w i) k := by
  obtain ⟨hafter, hlen⟩ := holds hf h i
  obtain ⟨m', hm, _, hreply⟩ := step hf hafter hlen
  rw [hm.seen]
  rcases hreply with ⟨k, v, hl, hv, hr⟩ | hend
  . obtain ⟨hne, hk, _⟩ := hm.sizes hv
    exact .inl ⟨k, v, hl, hv, hne, hk, hr⟩
  . exact .inr hend

theorem beyond_iff {cmp : List UInt8 → List UInt8 → Ordering} {cursor k : List UInt8} :
    Beyond cmp (fun k => m k ≠ none) (cursorKey cursor) k ↔ Above cmp m cursor k := by
  cases cursor with
  | nil => exact ⟨fun hb => ⟨hb.1, fun hne => absurd rfl hne⟩, fun ha => ⟨ha.1, nofun⟩⟩
  | cons x xs =>
    refine ⟨fun hb => ⟨hb.1, fun _ => hb.2 (x :: xs) rfl⟩, fun ha => ⟨ha.1, fun c hc => ?_⟩⟩
    obtain rfl : x :: xs = c := Option.some.inj hc
    exact ha.2 (List.cons_ne_nil x xs)

theorem walk (hf : wk.Fair cfg g.root w) (h : HoldsMap cfg g m w) :
    Walk (keyCmp cfg g) (fun i k => kvSeen cfg g.root (wk.meets cfg g.root w i) k ≠ none)
      (fun i => cursorKey (wk.cursor cfg g.root w i)) fun i => found (wk.reply cfg g.root w i) where
  start := rfl
  next i a ha := by
    rcases told hf h i with ⟨k, v, _, _, hne, _, hr⟩ | ⟨hr, _⟩
    . simp only [hr, found, Option.some.injEq] at ha
      subst ha
      show cursorKey (passBack (wk.cursor cfg g.root w i) (wk.reply cfg g.root w i)) = some k
      rw [hr]
      exact if_neg fun h0 => hne (List.length_eq_zero_iff.mp h0)
    . simp only [hr, found] at ha
      cases ha
  found i a ha := by
    rcases told hf h i with ⟨k, v, hl, _, _, _, hr⟩ | ⟨hr, _⟩
    . simp only [hr, found, Option.some.injEq] at ha
      subst ha
      exact ⟨beyond_iff.mpr hl.1, fun q hq => hl.2 q (beyond_iff.mp hq)⟩
    . simp only [hr, found] at ha
      cases ha
  ended i ha := by
    rcases told hf h i with ⟨k, v, _, _, _, _, hr⟩ | ⟨_, hnone⟩
    . simp only [hr, found] at ha
      cases ha
    . exact fun x hx => hnone x (beyond_iff.mp hx)

instance : Finite UInt8 := Finite.of_injective UInt8.toFin fun _ _ h => UInt8.toFin_inj.mp h

def foundVal : KvReply → List UInt8
  | .ok (.entry (.entry _ val)) => val
  | _ => []

theorem enumerates (hf : wk.Fair cfg g.root w) (h : HoldsMap cfg g m w) :
    ∃ n keys vals, wk.Enumerates cfg g.root (keyCmp cfg g) w n keys vals := by
  have hwalk := walk hf h
  have hfinite : ∀ i k, kvSeen cfg g.root (wk.meets cfg g.root w i) k ≠ none →
      k ∈ { l : List UInt8 | l.length ≤ entLenMask } := by
    intro i k hk
    obtain ⟨hafter, hlen⟩ := holds hf h i
    obtain ⟨m', hm, _⟩ := step hf hafter hlen
    rw [hm.seen] at hk
    obtain ⟨v, hv⟩ := Option.ne_none_iff_exists'.mp hk
    exact (hm.sizes hv).2.1
  obtain ⟨n, hend, hgo⟩ := hwalk.ends (List.finite_length_le UInt8 entLenMask) hfinite
  -- every call before the last one returns an entry
  have hentry : ∀ i < n, ∃ k v, kvSeen cfg g.root (wk.meets cfg g.root w i) k = some v ∧
      wk.reply cfg g.root w i = .ok (.entry (.entry k v)) := by
    intro i hi
    rcases told hf h i with ⟨k, v, _, hv, _, _, hr⟩ | ⟨hr, _⟩
    . exact ⟨k, v, hv, hr⟩
    . exact absurd (by simp only [hr, found]) (hgo i hi)
  have hkey : ∀ i < n, found (wk.reply cfg g.root w i) =
      some ((found (wk.reply cfg g.root w i)).getD []) := by
    intro i hi
    obtain ⟨k, v, _, hr⟩ := hentry i hi
    rw [hr]
    rfl
  have hasc : ∀ i j, i < j → j < n → keyCmp cfg g ((found (wk.reply cfg g.root w i)).getD [])
      ((found (wk.reply cfg g.root w j)).getD []) = .lt :=
    fun i j hij hj => hwalk.ascending hij (fun k hk => hgo k (by omega)) (hkey i (by omega)) (hkey j hj)
  refine ⟨n, fun i => (found (wk.reply cfg g.root w i)).getD [],
    fun i => foundVal (wk.reply cfg g.root w i), ?_, ?_, hasc, ?_, ?_⟩
  . intro i hi
    obtain ⟨k, v, _, hr⟩ := hentry i hi
    rw [hr]
    rfl
  . rcases told hf h n with ⟨k, v, _, _, _, _, hr⟩ | ⟨hr, _⟩
    . rw [hr] at hend
      cases hend
    . exact hr
  . intro i hi
    obtain ⟨k, v, hv, hr⟩ := hentry i hi
    simp only [hr, found, foundVal, Option.getD_some]
    exact hv
  . intro k hk
    obtain ⟨i, hi, hik⟩ := hwalk.complete hend hgo hk
    refine ⟨i, ⟨hi, by rw [hik]; rfl⟩, ?_⟩
    rintro j ⟨hj, hjk⟩
    have hik' : (found (wk.reply cfg g.root w i)).getD [] = k := by
      rw [hik]
      rfl
    rcases Nat.lt_trichotomy i j with hij | hij | hij
    . have hlt := hasc i j hij hj
      rw [hik', hjk] at hlt
      exact absurd hlt (keyCmp_irrefl k)
    . exact hij.symm
    . have hlt := hasc j i hij hi
      rw [hik', hjk] at hlt
      exact absurd hlt (keyCmp_irrefl k)

end MapWalk

/-! Which maps are walked well -/

-- A walk of the map that is created, after any calls, and every successor that is asked for.
def WalksWell (cfg : KvCfg) (root : Nat) (mc : Option MapConfig) (w : World KvRam) : Prop :=
  ∃ geo, deriveGeometry cfg mc = some (.ok geo) ∧
    ∀ cs, (∀ r ∈ (lifeOfMap cfg root mc w cs).1, r.Plain) →
      (∀ wk : MapWalk, wk.Fair cfg root (lifeOfMap cfg root mc w cs).2 →
        ∃ n keys vals,
          wk.Enumerates cfg root (keyOrder cfg geo) (lifeOfMap cfg root mc w cs).2 n keys vals) ∧
      ∀ cursor koutSz voutSz, cursor.length ≤ 0xffff →
        Succeeds (keyOrder cfg geo) (kvSeen cfg root (lifeOfMap cfg root mc w cs).2) cursor koutSz
          voutSz (kvStep cfg root (lifeOfMap cfg root mc w cs).2
            ⟨.next cursor koutSz voutSz, [], [], []⟩).1.reply

-- The directory fits into a payload. One that is sized by the declared entries always does, unless a
-- payload does not even hold its header.
def MapFits (cfg : KvCfg) (mc : Option MapConfig) : Prop :=
  if (mc.map MapConfig.expectedEntries).getD 0 = 0 then dirLen defaultBuckets ≤ cfg.maxPayload
  else dirHdrLen ≤ cfg.maxPayload

instance (cfg : KvCfg) (mc : Option MapConfig) : Decidable (MapFits cfg mc) :=
  inferInstanceAs (Decidable (ite _ _ _))

variable {mc : Option MapConfig} {geo : Geometry}

theorem deriveGeometry_fits (h : deriveGeometry cfg mc = some (.ok geo)) :
    MapFits cfg mc ↔ dirLen geo.nTop ≤ cfg.maxPayload := by
  have hmax : dirHdrLen ≤ cfg.maxPayload → ∀ n ≤ cfg.maxBuckets, dirLen n ≤ cfg.maxPayload := by
    intro hle n hn
    have hpay := cfg.payload_le
    simp only [StoreCfg.maxBuckets, dirHdrLen, entLenMask] at hle hn hpay
    simp only [dirLen, dirHdrLen]
    omega
  have hmin : ∀ n, dirLen n ≤ cfg.maxPayload → dirHdrLen ≤ cfg.maxPayload :=
    fun n hn => (Nat.le_add_right _ _).trans hn
  simp only [deriveGeometry] at h
  split at h
  . cases h
  split at h
  . cases h
  split at h
  . next hentries =>
    cases h
    rw [MapFits, if_pos hentries]
  next hentries =>
  rw [MapFits, if_neg hentries]
  split at h
  . next hwant =>
    cases h
    exact ⟨fun hle => hmax hle _ hwant.2, hmin _⟩
  split at h
  . cases h
  . next side _ =>
    split at h
    . cases h
    . next hside =>
      cases h
      refine ⟨fun hle => hmax hle _ ?_, hmin _⟩
      exact (Nat.mod_le _ _).trans (Nat.not_lt.mp hside)

-- A root that cannot be loaded does not even say that there is nothing.
theorem next_oversized (h : Oversized cfg root w.blobs) (koutSz voutSz : Nat) :
    ∃ e, Errno.Telling e ∧
      (kvStep cfg root w ⟨.next [] koutSz voutSz, [], [], []⟩).1.reply = .err e := by
  have hspec : Spec telling
      (Sees w.blobs w.top (w.ram.keyInlineMax, w.ram.valInlineMax) [] [])
      (kvhashNext cfg root [] koutSz voutSz) (refusedPost Successor w.blobs w.top
        (w.ram.keyInlineMax, w.ram.valInlineMax) Errno.Telling) :=
    refused_dirLoad (fun _ hs => hs) h _
  obtain ⟨hpost, _⟩ := (kvhashNext_views [] koutSz voutSz).silent.holds hspec
  have hrun : (KvOp.next [] koutSz voutSz).run cfg root
      (w.enterKv ⟨.next [] koutSz voutSz, [], [], []⟩) =
        Proc.step (kvhashNext cfg root [] koutSz voutSz w.still)
          fun x s => (.ok (.entry x), s) := rfl
  rw [kvStep, hrun]
  generalize kvhashNext cfg root [] koutSz voutSz w.still = r at hpost
  obtain ⟨o, s⟩ := r
  cases o with
  | ok x => exact hpost.elim
  | err e => exact ⟨e, hpost.1, rfl⟩
  | cut => exact hpost.elim

theorem MapMade.holds (h : MapMade cfg root mc w) (hfits : MapFits cfg mc) :
    ∃ geo, deriveGeometry cfg mc = some (.ok geo) ∧
      HoldsMap cfg (geo.shape root) (fun _ => none) (kvhashCreate cfg root mc w).2 := by
  obtain ⟨geo, hgeo, hkeeps, hover⟩ := h.keeps
  rcases hkeeps with hholds | ⟨hlong, _⟩
  . exact ⟨geo, hgeo, hholds⟩
  . have hlt := hover hlong
    have hle := (deriveGeometry_fits hgeo).mp hfits
    omega

theorem MapMade.oversized (h : MapMade cfg root mc w) (hfits : ¬ MapFits cfg mc) :
    Oversized cfg root (kvhashCreate cfg root mc w).2.blobs := by
  obtain ⟨geo, hgeo, hkeeps, _⟩ := h.keeps
  rcases hkeeps with ⟨tbl, hstored, _⟩ | ⟨hlong, _⟩
  . refine absurd ((deriveGeometry_fits hgeo).mpr ?_) hfits
    have hn := hstored.shape.n_fits
    rcases hstored.shape.levels with ⟨hd, _⟩ | ⟨hd, _, hfan⟩
    . have hd : geo.depth = 1 := hd
      simpa only [Geometry.shape, hd, if_true] using hn
    . have hd : geo.depth = 2 := hd
      simpa only [Geometry.shape, hd, OfNat.ofNat_ne_one, if_false] using hfan
  . exact hlong

-- Exactly the maps whose directory fits are walked well, whatever changes them meanwhile.
theorem kvhash_walks_iff (h : MapMade cfg root mc w) :
    WalksWell cfg root mc w ↔ MapFits cfg mc := by
  constructor
  . rintro ⟨geo, _, hwell⟩
    by_contra hfits
    obtain ⟨e, he, hreply⟩ := next_oversized (h.oversized hfits) 0 0
    have hsucc := (hwell [] nofun).2 [] 0 0 (by simp)
    rw [show (lifeOfMap cfg root mc w []).2 = (kvhashCreate cfg root mc w).2 from rfl, hreply] at hsucc
    rcases hsucc with ⟨k, v, _, _, hr⟩ | ⟨hr, _⟩
    . cases hr
    . exact he.2 (Out.err.inj hr)
  . intro hfits
    obtain ⟨geo, hgeo, hholds⟩ := h.holds hfits
    refine ⟨geo, hgeo, fun cs hp => ?_⟩
    obtain ⟨m, hm⟩ := runKv_holds cs hholds hp
    refine ⟨fun wk hf => MapWalk.enumerates hf hm, fun cursor koutSz voutSz hlen => ?_⟩
    have hseen : kvSeen cfg root (lifeOfMap cfg root mc w cs).2 = m := hm.seen
    rw [hseen]
    exact (next_reply hm hlen koutSz voutSz).1

theorem kvhash_walks_small : MapFits smallMap none ∧ WalksWell smallMap 2 none blankMap :=
  ⟨by decide, (kvhash_walks_iff (blankMap_made (by decide +kernel))).mpr (by decide)⟩

-- A build whose payloads are too small for the eight buckets of a default map, but whose objects are not.
def tinyMap : KvCfg where
  maxPayload := 60
  maxObject := 300
  partition := 2000
  hash := fun _ => 0
  fpMask := 0
  keyInlineMax := 10
  valInlineMax := 10
  sizeMod := 2 ^ 32
  size_ge := size32_ge
  buckets_ge := by decide
  payload_le := by decide

-- The map is created, and its walk does not end: next cannot load the root.
theorem tiny_map_is_not_walked :
    (kvhashCreate tinyMap 2 none blankMap).1 = .ok () ∧
      (kvStep tinyMap 2 (kvhashCreate tinyMap 2 none blankMap).2 ⟨.next [] 60 60, [], [], []⟩).1.reply =
        .err Errno.ENOMEM ∧
      ¬ WalksWell tinyMap 2 none blankMap := by
  refine ⟨by decide +kernel, by decide +kernel, ?_⟩
  rintro ⟨geo, _, hwell⟩
  have hsucc := (hwell [] nofun).2 [] 60 60 (by simp)
  have hreply : (kvStep tinyMap 2 (lifeOfMap tinyMap 2 none blankMap []).2
      ⟨.next [] 60 60, [], [], []⟩).1.reply = .err Errno.ENOMEM := by decide +kernel
  rw [hreply] at hsucc
  rcases hsucc with ⟨k, v, _, _, hr⟩ | ⟨hr, _⟩ <;> cases hr

end KeyValueDb.Containers
