import KeyValueDb.Containers.KvhashReads
import KeyValueDb.Lib.Successors

/-!
Searching a bucket: for the entry of a key, and for the first key after a cursor in the order the map
is walked in.
-/

namespace KeyValueDb.Containers

-- A pair whose blobs are live and hold its key and its value.
structure Pair.Sound (b : Blobs) (p : Pair) : Prop extends p.Fits where
  key_live : p.kid ≠ 0 → b p.kid = some p.key
  val_live : p.vid ≠ 0 → b p.vid = some p.val

-- The order of the keys of a bucket.
def bktCmp (cfg : KvCfg) : List UInt8 → List UInt8 → Ordering :=
  compareLex (compareOn List.length) (compareLex (compareOn (keyFp cfg)) compare)

instance (cfg : KvCfg) : Std.TransCmp (bktCmp cfg) :=
  inferInstanceAs (Std.TransCmp (compareLex (compareOn List.length) _))

instance (cfg : KvCfg) : Std.LawfulEqCmp (bktCmp cfg) where
  eq_of_compare h := by
    simp only [bktCmp, compareLex_eq_eq] at h
    exact Std.LawfulEqOrd.eq_of_compare h.2.2

theorem bktCmp_self (cfg : KvCfg) (k : List UInt8) : bktCmp cfg k k = .eq := Std.ReflCmp.compare_self

theorem bktCmp_le {cfg : KvCfg} {k l : List UInt8} (h : bktCmp cfg k l ≠ .lt) :
    (bktCmp cfg l k).isLE := by
  have hswap : bktCmp cfg l k = (bktCmp cfg k l).swap := Std.OrientedCmp.eq_swap
  rw [hswap]
  generalize bktCmp cfg k l = o at h
  cases o with
  | lt => exact absurd rfl h
  | eq => rfl
  | gt => rfl

variable {cfg : KvCfg} {H : Hypothesis (World KvRam)} {b : Blobs} {top : Nat} {lim : Nat × Nat}
  {dir bkt : List UInt8}

theorem Shows.keySrc {buf : List UInt8} {off : Nat} {p : Pair} (h : Shows cfg buf off p)
    (hp : p.Sound b) : (entKey buf (p.ent off)).Is b p.key := by
  rw [entKey]
  by_cases hk : p.kid = 0
  . rw [if_neg (by simp [Pair.ent, hk])]
    obtain ⟨rest, hrest⟩ := h.keyHere hk
    exact ⟨rest, hrest.symm⟩
  . rw [if_pos (by simp [Pair.ent, hk]), (h.keyRef hp.toFits hk).2]
    exact ⟨hk, hp.key_live hk⟩

-- The entries of a bucket that begins at `off` of a buffer.
theorem shows_cons {buf : List UInt8} {off : Nat} {p : Pair} {ps : List Pair} {rest : List UInt8}
    (h : buf.drop off = bktImage cfg (p :: ps) ++ rest) :
    Shows cfg buf off p ∧ buf.drop (off + p.size) = bktImage cfg ps ++ rest := by
  rw [bktImage_cons, List.append_assoc] at h
  refine ⟨⟨_, h⟩, ?_⟩
  rw [← List.drop_drop, h, List.drop_left' (p.image_length cfg)]

/-! The entry of a key -/

-- How a search for `key` ends.
def findPost (b : Blobs) (top : Nat) (lim : Nat × Nat) (bkt key : List UInt8) (off : Nat)
    (ps : List Pair) : Post (World KvRam) Errno (Nat × Ent) where
  ok hit s :=
    (∃ pre p post, ps = pre ++ p :: post ∧ p.key = key ∧
      hit = (off + bktSize pre, p.ent (off + bktSize pre))) ∧ Sees b top lim [] bkt s
  err e s :=
    e = Errno.ENOENT ∧ (∀ p ∈ ps, p.key ≠ key) ∧ Sees b top lim [] bkt s ∨
      Sees b top lim [] [] s ∧ Failing e s
  cut _ := False

theorem findPost_skip {key : List UInt8} {off : Nat} {p : Pair} {ps : List Pair} {x : K (Nat × Ent)}
    {P : World KvRam → Prop} (hp : p.key ≠ key)
    (h : Spec H P x (findPost b top lim bkt key (off + p.size) ps)) :
    Spec H P x (findPost b top lim bkt key off (p :: ps)) := by
  refine h.conseq (fun _ h => h) ?_ ?_ fun _ h => h
  . rintro hit s ⟨⟨pre, q, post, rfl, hq, rfl⟩, hs⟩
    refine ⟨⟨p :: pre, q, post, rfl, hq, ?_⟩, hs⟩
    rw [bktSize_cons, Nat.add_assoc]
  . rintro e s (⟨rfl, hnone, hs⟩ | he)
    . refine .inl ⟨rfl, ?_, hs⟩
      intro q hq
      rcases List.mem_cons.mp hq with rfl | hq
      . exact hp
      . exact hnone q hq
    . exact .inr he

section Reading

variable (hH : ∀ w, H.holds w → telling.holds w)

include hH

theorem bktFindIn_spec {buf key : List UInt8} {off : Nat} {ps : List Pair} {rest : List UInt8}
    (hps : ∀ p ∈ ps, p.Sound b) (hbuf : buf.drop off = bktImage cfg ps ++ rest) :
    Spec H (Sees b top lim dir bkt) (bktFindIn cfg buf key (keyFp cfg key) (located off ps))
      (findPost b top lim bkt key off ps) := by
  induction ps generalizing off dir with
  | nil =>
    exact Spec.fail fun s hs =>
      .inl ⟨rfl, by simp, hs.weaken List.nil_prefix List.prefix_rfl⟩
  | cons p ps ih =>
    obtain ⟨hshow, hnext⟩ := shows_cons hbuf
    have hp := hps p (by simp)
    have hfound : ∀ {P : World KvRam → Prop}, p.key = key →
        (∀ s, P s → Sees b top lim [] bkt s) →
        Spec H P (pure (off, p.ent off)) (findPost b top lim bkt key off (p :: ps)) := by
      intro P hkey hP
      exact Spec.ret fun s hs => ⟨⟨[], p, ps, rfl, hkey, rfl⟩, hP s hs⟩
    have hskip : ∀ {dir : List UInt8}, p.key ≠ key → Spec H (Sees b top lim dir bkt)
        (bktFindIn cfg buf key (keyFp cfg key) (located (off + p.size) ps))
        (findPost b top lim bkt key off (p :: ps)) := by
      intro dir hne
      exact findPost_skip hne (ih (fun q hq => hps q (by simp [hq])) hnext)
    rw [located, bktFindIn]
    refine Spec.ite (fun hlen => hskip fun he => hlen (by rw [← he]; rfl)) fun hlen => ?_
    have hlen : p.key.length = key.length := not_not.mp hlen
    refine Spec.ite (fun hk => ?_) fun hk => ?_
    . -- the key is in the entry
      have hk : p.kid = 0 := by simpa [Pair.ent] using hk
      obtain ⟨tail, htail⟩ := hshow.keyHere hk
      have hcmp : memcmp (buf.drop (p.ent off).kpos) key key.length = compare p.key key :=
        memcmp_eq ⟨tail, htail.symm⟩ List.prefix_rfl hlen rfl
      rw [hcmp]
      refine Spec.ite (fun hne => hskip fun he => hne ?_) fun heq => hfound ?_ ?_
      . rw [he, Std.ReflOrd.compare_self]
      . exact Std.LawfulEqOrd.eq_of_compare (not_not.mp heq)
      . exact fun s hs => hs.weaken List.nil_prefix List.prefix_rfl
    . have hk : p.kid ≠ 0 := by simpa [Pair.ent] using hk
      rw [(hshow.keyRef hp.toFits hk).1]
      refine Spec.ite (fun hne => hskip fun he => hne (by rw [he])) fun _ => ?_
      refine (keyCmpBytes_spec hH (hshow.keySrc hp) (c := .ram key) List.prefix_rfl hlen rfl true).bind
        ?_ (fun _ _ h => .inr h) fun _ h => h
      intro o
      refine Spec.fact ?_
      rintro rfl
      refine Spec.ite (fun hne => hskip fun he => hne ?_) fun heq => hfound ?_ fun s hs => hs
      . rw [he, Std.ReflOrd.compare_self]
      . exact Std.LawfulEqOrd.eq_of_compare (not_not.mp heq)

theorem bktFind_spec {buf key : List UInt8} {ps : List Pair} (hps : ∀ p ∈ ps, p.Sound b)
    (hbuf : bktImage cfg ps <+: buf) :
    Spec H (Sees b top lim dir bkt) (bktFind cfg buf (bktSize ps) key (keyFp cfg key))
      (findPost b top lim bkt key 0 ps) := by
  obtain ⟨rest, rfl⟩ := hbuf
  rw [bktFind, bktEnts_eq (fun p hp => (hps p hp).toFits) rfl]
  exact bktFindIn_spec hH hps rfl

-- A copied value, or its length if the buffer is too small for it.
def fetched (outSz : Nat) (val : List UInt8) : Fetched :=
  if outSz < val.length then .tooSmall val.length else .value val

theorem entValue_spec {buf : List UInt8} {off : Nat} {p : Pair} (hshow : Shows cfg buf off p)
    (hp : p.Sound b) (outSz : Nat) :
    Spec H (Sees b top lim dir bkt) (entValue buf (p.ent off) outSz)
      (readPost b top lim dir bkt (· = fetched outSz p.val)) := by
  have hvl : (p.ent off).vl = p.val.length := rfl
  rw [entValue, hvl, fetched]
  refine Spec.ite (fun hlt => ?_) fun hge => ?_
  . rw [if_pos hlt]
    exact Spec.ret fun s hs => ⟨rfl, hs⟩
  rw [if_neg hge]
  refine Spec.ite (fun hv => ?_) fun hv => ?_
  . have hv : p.vid = 0 := by simpa [Pair.ent] using hv
    obtain ⟨tail, htail⟩ := hshow.valPart
    rw [if_neg (fun hn => hn hv)] at htail
    rw [htail, List.take_left' rfl]
    exact Spec.ret fun s hs => ⟨rfl, hs⟩
  . have hv : p.vid ≠ 0 := by simpa [Pair.ent] using hv
    rw [hshow.valId hp.toFits, if_neg hv]
    refine (blobDbGet_spec hH (hp.val_live hv) (by omega)).attempt.bind ?_ (fun _ _ h => h.elim)
      fun _ h => h
    rintro (e | bytes)
    . refine Spec.fail fun s hs => ⟨hs.1, ?_⟩
      split
      . exact ⟨by rintro ⟨⟩, by rintro ⟨⟩, hs.2.read⟩
      . exact hs.2
    . refine Spec.fact ?_
      rintro rfl
      exact Spec.ite (fun _ => Spec.ret fun s hs => ⟨rfl, hs⟩) fun hne => absurd rfl hne

/-! The first key after a cursor -/

-- A key as the comparison takes it.
structure Okey.Is (cfg : KvCfg) (b : Blobs) (k : List UInt8) (a : Okey) : Prop where
  kl : a.kl = k.length
  fp : a.fp = keyFp cfg k
  src : a.src.Is b k

omit hH in
theorem then_of_ne {o o' : Ordering} (h : o ≠ .eq) : o.then o' = o := by
  cases o with
  | eq => exact absurd rfl h
  | lt => rfl
  | gt => rfl

theorem okeyCmp_spec {a c : Okey} {k l : List UInt8} (ha : a.Is cfg b k) (hc : c.Is cfg b l) :
    Spec H (Sees b top lim dir bkt) (okeyCmp cfg a c)
      (readPost b top lim dir bkt (· = bktCmp cfg k l)) := by
  have hcmp : bktCmp cfg k l = (compare k.length l.length).then
      ((compare (keyFp cfg k) (keyFp cfg l)).then (compare k l)) := rfl
  rw [okeyCmp, ha.kl, hc.kl, ha.fp, hc.fp, hcmp]
  refine Spec.ite (fun hne => ?_) fun hlen => ?_
  . refine Spec.ret fun s hs => ⟨?_, hs⟩
    exact (then_of_ne fun h => hne (Std.LawfulEqOrd.eq_of_compare h)).symm
  have hlen : k.length = l.length := not_not.mp hlen
  rw [hlen, Std.ReflOrd.compare_self, Ordering.eq_then]
  refine Spec.ite (fun hne => ?_) fun hfp => ?_
  . refine Spec.ret fun s hs => ⟨?_, hs⟩
    exact (then_of_ne fun h => hne (Std.LawfulEqOrd.eq_of_compare h)).symm
  . rw [not_not.mp hfp, Std.ReflOrd.compare_self, Ordering.eq_then]
    exact keyCmpBytes_spec hH ha.src hc.src hlen rfl false

omit hH in
theorem Shows.okey {buf : List UInt8} {off : Nat} {p : Pair} (h : Shows cfg buf off p)
    (hp : p.Sound b) : (entOkey cfg buf (p.ent off)).Is cfg b p.key :=
  ⟨rfl, h.fp hp.toFits, h.keySrc hp⟩

-- A key after the cursor; without a cursor, any key.
def After (cfg : KvCfg) (c : Option (List UInt8)) (k : List UInt8) : Prop :=
  ∀ x ∈ c, bktCmp cfg x k = .lt

-- The cursor `c` as the comparison takes it.
inductive CursorIs (cfg : KvCfg) (b : Blobs) : Option (List UInt8) → Option Okey → Prop where
  | none : CursorIs cfg b none none
  | some {k : List UInt8} {a : Okey} (h : a.Is cfg b k) : CursorIs cfg b (some k) (some a)

theorem okeyAfter_spec {a : Okey} {k : List UInt8} {c : Option (List UInt8)} {cursor : Option Okey}
    (ha : a.Is cfg b k) (hc : CursorIs cfg b c cursor) :
    Spec H (Sees b top lim dir bkt) (okeyAfter cfg a cursor)
      (readPost b top lim dir bkt (· = true ↔ After cfg c k)) := by
  cases hc with
  | none => exact Spec.ret fun s hs => ⟨⟨fun _ => nofun, fun _ => rfl⟩, hs⟩
  | @some x o h =>
    refine Spec.reads (okeyCmp_spec hH ha h) ?_ fun e s hs he => ⟨hs, he⟩
    rintro _ rfl
    refine Spec.ret fun s hs => ⟨?_, hs⟩
    show decide _ = true ↔ _
    rw [decide_eq_true_iff, Std.OrientedCmp.gt_iff_lt]
    exact ⟨fun hlt y hy => Option.some.inj hy ▸ hlt, fun hall => hall x rfl⟩

theorem okeyBetter_spec {buf : List UInt8} {a : Okey} {k : List UInt8} {best : Option (Nat × Pair)}
    (ha : a.Is cfg b k) (hbest : ∀ x ∈ best, Shows cfg buf x.1 x.2 ∧ x.2.Sound b) :
    Spec H (Sees b top lim dir bkt)
      (okeyBetter cfg buf a (best.map fun x => (x.1, x.2.ent x.1)))
      (readPost b top lim dir bkt (· = true ↔ ∀ x ∈ best, bktCmp cfg k x.2.key = .lt)) := by
  cases best with
  | none => exact Spec.ret fun s hs => ⟨⟨fun _ => nofun, fun _ => rfl⟩, hs⟩
  | some x =>
    obtain ⟨hshow, hsound⟩ := hbest x rfl
    refine Spec.reads (okeyCmp_spec hH ha (hshow.okey hsound)) ?_ fun e s hs he => ⟨hs, he⟩
    rintro _ rfl
    refine Spec.ret fun s hs => ⟨?_, hs⟩
    show decide _ = true ↔ _
    rw [decide_eq_true_iff]
    exact ⟨fun hlt y hy => Option.some.inj hy ▸ hlt, fun hall => hall x rfl⟩

-- The keys that a search has seen or still has before it.
def Candidate (cfg : KvCfg) (c : Option (List UInt8)) (best : Option (Nat × Pair)) (ps : List Pair)
    (k : List UInt8) : Prop :=
  After cfg c k ∧ ((∃ x ∈ best, x.2.key = k) ∨ ∃ p ∈ ps, p.key = k)

-- The pair `p` of `ps` begins at `off`.
def Begins (ps : List Pair) (off : Nat) (p : Pair) : Prop :=
  ∃ pre post, ps = pre ++ p :: post ∧ off = bktSize pre

omit hH in
theorem Begins.mem {ps : List Pair} {off : Nat} {p : Pair} (h : Begins ps off p) : p ∈ ps := by
  obtain ⟨pre, post, rfl, _⟩ := h
  simp

omit hH in
theorem Begins.shows {ps : List Pair} {off : Nat} {p : Pair} {buf : List UInt8}
    (h : Begins ps off p) (hbuf : bktImage cfg ps <+: buf) : Shows cfg buf off p := by
  obtain ⟨pre, post, rfl, rfl⟩ := h
  exact shows_split hbuf

-- How a search ends.
def firstPost (cfg : KvCfg) (b : Blobs) (top : Nat) (lim : Nat × Nat) (dir bkt : List UInt8)
    (A : List UInt8 → Prop) (ps : List Pair) : Post (World KvRam) Errno Nat where
  ok off s := (∃ p, Begins ps off p ∧ LeastOf (bktCmp cfg) A p.key) ∧ Sees b top lim dir bkt s
  err e s :=
    e = Errno.ENODATA ∧ (∀ k, ¬ A k) ∧ Sees b top lim dir bkt s ∨
      Sees b top lim [] [] s ∧ Failing e s
  cut _ := False

omit hH in
theorem firstPost_congr {A A' : List UInt8 → Prop} {ps : List Pair} {x : K Nat}
    {P : World KvRam → Prop} (h : Spec H P x (firstPost cfg b top lim dir bkt A ps))
    (hleast : ∀ k, LeastOf (bktCmp cfg) A k → LeastOf (bktCmp cfg) A' k)
    (hnone : (∀ k, ¬ A k) → ∀ k, ¬ A' k) :
    Spec H P x (firstPost cfg b top lim dir bkt A' ps) := by
  refine h.conseq (fun _ h => h) ?_ ?_ fun _ h => h
  . rintro off s ⟨⟨p, hp, hl⟩, hs⟩
    exact ⟨⟨p, hp, hleast _ hl⟩, hs⟩
  . rintro e s (⟨he, hA, hs⟩ | h)
    . exact .inl ⟨he, hnone hA, hs⟩
    . exact .inr h

section Candidates

variable {c : Option (List UInt8)} {best : Option (Nat × Pair)} {p : Pair} {ps : List Pair}
  {k : List UInt8} {off : Nat}

omit hH

theorem Candidate.tail (h : Candidate cfg c best ps k) : Candidate cfg c best (p :: ps) k := by
  refine ⟨h.1, h.2.imp id ?_⟩
  rintro ⟨q, hq, rfl⟩
  exact ⟨q, by simp [hq], rfl⟩

theorem Candidate.head (h : Candidate cfg c best (p :: ps) k) :
    Candidate cfg c best ps k ∨ k = p.key ∧ After cfg c p.key := by
  obtain ⟨hafter, hbest | ⟨q, hq, rfl⟩⟩ := h
  . exact .inl ⟨hafter, .inl hbest⟩
  . rcases List.mem_cons.mp hq with rfl | hq
    . exact .inr ⟨rfl, hafter⟩
    . exact .inl ⟨hafter, .inr ⟨q, hq, rfl⟩⟩

theorem LeastOf.skip (hp : ¬ After cfg c p.key)
    (h : LeastOf (bktCmp cfg) (Candidate cfg c best ps) k) :
    LeastOf (bktCmp cfg) (Candidate cfg c best (p :: ps)) k := by
  refine ⟨h.1.tail, fun q hq => ?_⟩
  rcases hq.head with hq | ⟨rfl, hafter⟩
  . exact h.2 q hq
  . exact absurd hafter hp

-- `p` is not before the best so far.
theorem LeastOf.keep {x : Nat × Pair} (hx : After cfg c x.2.key)
    (hp : bktCmp cfg p.key x.2.key ≠ .lt)
    (h : LeastOf (bktCmp cfg) (Candidate cfg c (some x) ps) k) :
    LeastOf (bktCmp cfg) (Candidate cfg c (some x) (p :: ps)) k := by
  refine ⟨h.1.tail, fun q hq => ?_⟩
  rcases hq.head with hq | ⟨rfl, hafter⟩
  . exact h.2 q hq
  . intro hlt
    have hbest := h.2 x.2.key ⟨hx, .inl ⟨x, rfl, rfl⟩⟩
    -- the best so far is not after `p`, which is before `k`
    exact hbest (Std.TransCmp.lt_of_isLE_of_lt (bktCmp_le hp) hlt)

-- `p` is before the best so far.
theorem LeastOf.take (hp : After cfg c p.key) (hbest : ∀ x ∈ best, bktCmp cfg p.key x.2.key = .lt)
    (h : LeastOf (bktCmp cfg) (Candidate cfg c (some (off, p)) ps) k) :
    LeastOf (bktCmp cfg) (Candidate cfg c best (p :: ps)) k := by
  have hpk := h.2 p.key ⟨hp, .inl ⟨(off, p), rfl, rfl⟩⟩
  constructor
  . obtain ⟨hafter, ⟨x, hx, rfl⟩ | ⟨q, hq, rfl⟩⟩ := h.1
    . obtain rfl : (off, p) = x := Option.some.inj hx
      exact ⟨hafter, .inr ⟨p, by simp, rfl⟩⟩
    . exact ⟨hafter, .inr ⟨q, by simp [hq], rfl⟩⟩
  . intro q hq
    obtain ⟨hafter, ⟨x, hx, rfl⟩ | ⟨r, hr, rfl⟩⟩ := hq
    . exact fun hlt => hpk (Std.TransCmp.lt_trans (hbest x hx) hlt)
    . rcases List.mem_cons.mp hr with rfl | hr
      . exact hpk
      . exact h.2 _ ⟨hafter, .inr ⟨r, hr, rfl⟩⟩

end Candidates

theorem bktFirstAfterIn_spec {buf : List UInt8} {c : Option (List UInt8)} {cursor : Option Okey}
    (hc : CursorIs cfg b c cursor) {all seen ps : List Pair} (best : Option (Nat × Pair))
    (hall : ∀ p ∈ all, p.Sound b) (hbuf : bktImage cfg all <+: buf) (hsplit : all = seen ++ ps)
    (hbest : ∀ x ∈ best, Begins all x.1 x.2 ∧ After cfg c x.2.key) :
    Spec H (Sees b top lim dir bkt)
      (bktFirstAfterIn cfg buf cursor (best.map fun x => (x.1, x.2.ent x.1))
        (located (bktSize seen) ps))
      (firstPost cfg b top lim dir bkt (Candidate cfg c best ps) all) := by
  induction ps generalizing seen best with
  | nil =>
    cases best with
    | none =>
      refine Spec.fail fun s hs => .inl ⟨rfl, ?_, hs⟩
      rintro k ⟨_, ⟨x, hx, _⟩ | ⟨p, hp, _⟩⟩
      . cases hx
      . cases hp
    | some x =>
      obtain ⟨hstand, hafter⟩ := hbest x rfl
      refine Spec.ret fun s hs => ⟨⟨x.2, hstand, ⟨hafter, .inl ⟨x, rfl, rfl⟩⟩, ?_⟩, hs⟩
      rintro k ⟨_, ⟨y, hy, rfl⟩ | ⟨p, hp, _⟩⟩
      . obtain rfl : x = y := Option.some.inj hy
        rw [bktCmp_self]
        rintro ⟨⟩
      . cases hp
  | cons p ps ih =>
    have hp : Begins all (bktSize seen) p := ⟨seen, ps, hsplit, rfl⟩
    have hokey := (hp.shows hbuf).okey (hall p hp.mem)
    have hnext : all = (seen ++ [p]) ++ ps := by simpa using hsplit
    have hpos : bktSize seen + p.size = bktSize (seen ++ [p]) := by
      simp [bktSize]
    rw [located, bktFirstAfterIn, hpos]
    refine Spec.reads (okeyAfter_spec hH hokey hc) ?_ fun e s hs he => .inr ⟨hs, he⟩
    intro after hafter
    refine Spec.ite (fun hno => ?_) fun hyes => ?_
    . have hno : ¬ After cfg c p.key := fun h => by simp [hafter.mpr h] at hno
      refine firstPost_congr (ih best hnext hbest) (fun k h => LeastOf.skip hno h) fun hnone k hk => ?_
      rcases hk.head with hk | ⟨_, h⟩
      . exact hnone k hk
      . exact hno h
    have hyes : After cfg c p.key := hafter.mp (by simpa using hyes)
    refine Spec.reads (okeyBetter_spec hH hokey fun x hx =>
      ⟨(hbest x hx).1.shows hbuf, hall _ (hbest x hx).1.mem⟩) ?_ fun e s hs he => .inr ⟨hs, he⟩
    intro better hbetter
    refine Spec.ite (fun hno => ?_) fun hyes' => ?_
    . cases best with
      | none => simp [hbetter.mpr (by rintro _ ⟨⟩)] at hno
      | some x =>
        have hnot : bktCmp cfg p.key x.2.key ≠ .lt := by
          intro hlt
          have := hbetter.mpr fun y hy => by
            obtain rfl : x = y := Option.some.inj hy
            exact hlt
          simp [this] at hno
        refine firstPost_congr (ih (some x) hnext hbest)
          (fun k h => LeastOf.keep (hbest x rfl).2 hnot h) fun hnone => ?_
        exact absurd ⟨(hbest x rfl).2, .inl ⟨x, rfl, rfl⟩⟩ (hnone x.2.key)
    . have hlt := hbetter.mp (by simpa using hyes')
      refine firstPost_congr (ih (some (bktSize seen, p)) hnext ?_)
        (fun k h => LeastOf.take hyes hlt h) fun hnone => ?_
      . intro x hx
        obtain rfl : (bktSize seen, p) = x := Option.some.inj hx
        exact ⟨hp, hyes⟩
      . exact absurd ⟨hyes, .inl ⟨(bktSize seen, p), rfl, rfl⟩⟩ (hnone p.key)

theorem bktFirstAfter_spec {buf : List UInt8} {c : Option (List UInt8)} {cursor : Option Okey}
    (hc : CursorIs cfg b c cursor) {ps : List Pair} (hps : ∀ p ∈ ps, p.Sound b)
    (hbuf : bktImage cfg ps <+: buf) :
    Spec H (Sees b top lim dir bkt) (bktFirstAfter cfg buf (bktSize ps) cursor)
      (firstPost cfg b top lim dir bkt (Candidate cfg c none ps) ps) := by
  have hents : bktEnts buf (bktSize ps) = located (bktSize []) ps := by
    obtain ⟨rest, rfl⟩ := hbuf
    exact bktEnts_eq (fun p hp => (hps p hp).toFits) rfl
  rw [bktFirstAfter, hents]
  exact bktFirstAfterIn_spec hH hc none hps hbuf rfl nofun

end Reading

end KeyValueDb.Containers
