import KeyValueDb.Containers.KvhashImage

/-!
What the reading procedures of a map find: where a key's bytes are, how two keys compare, which entry
of a bucket is the one asked for.
-/

namespace KeyValueDb.Containers

-- The blobs, the highest id, the thresholds, and how the two buffers begin.
structure Sees (b : Blobs) (top : Nat) (lim : Nat × Nat) (dir bkt : List UInt8) (s : World KvRam) :
    Prop where
  blobs : s.blobs = b
  top : s.top = top
  lim : (s.ram.keyInlineMax, s.ram.valInlineMax) = lim
  dir : dir <+: s.ram.dirBuf
  bkt : bkt <+: s.ram.bktBuf

-- An error that comes from a read.
structure Failing (e : Errno) (s : World KvRam) : Prop where
  noent : e ≠ Errno.ENOENT
  nodata : e ≠ Errno.ENODATA
  read : ReadFailed s.history

-- How a procedure that only reads can end.
def readPost {α : Type} (b : Blobs) (top : Nat) (lim : Nat × Nat) (dir bkt : List UInt8)
    (φ : α → Prop) : Post (World KvRam) Errno α where
  ok a s := φ a ∧ Sees b top lim dir bkt s
  err e s := Sees b top lim [] [] s ∧ Failing e s
  cut _ := False

variable {cfg : KvCfg} {H : Hypothesis (World KvRam)} {b : Blobs} {top : Nat} {lim : Nat × Nat}
  {dir bkt : List UInt8} {α β : Type}

namespace Sees

variable {s : World KvRam}

theorem weaken (h : Sees b top lim dir bkt s) {dir' bkt' : List UInt8} (hd : dir' <+: dir)
    (hb : bkt' <+: bkt) : Sees b top lim dir' bkt' s :=
  ⟨h.blobs, h.top, h.lim, hd.trans h.dir, hb.trans h.bkt⟩

theorem idle (h : Sees b top lim dir bkt s) : Sees b top lim [] [] s :=
  h.weaken List.nil_prefix List.nil_prefix

theorem readDone (h : Sees b top lim dir bkt s) : Sees b top lim dir bkt s.readDone :=
  ⟨h.blobs, h.top, h.lim, h.dir, h.bkt⟩

theorem readFailed (h : Sees b top lim dir bkt s) (id : Nat) (e : Errno) :
    Sees b top lim dir bkt (s.readFailed id e) :=
  ⟨h.blobs, h.top, h.lim, h.dir, h.bkt⟩

end Sees

theorem failing_read (hH : ∀ w, H.holds w → telling.holds w) {s : World KvRam} {id : Nat} {e : Errno}
    (hh : H.holds (s.readFailed id e)) : Failing e (s.readFailed id e) := by
  have htell := hH _ hh (.readError id e) (by simp [World.readFailed])
  exact ⟨htell.1, htell.2, id, e, by simp [World.readFailed]⟩

namespace Spec

variable {Q : Post (World KvRam) Errno β}

-- What a reading procedure finds is known where it goes on, and it fails as the whole does.
theorem reads {dir' bkt' : List UInt8} {φ : α → Prop} {x : K α} {f : α → K β}
    {P : World KvRam → Prop} (hx : Spec H P x (readPost b top lim dir' bkt' φ))
    (hf : ∀ a, φ a → Spec H (Sees b top lim dir' bkt') (f a) Q)
    (herr : ∀ e s, Sees b top lim [] [] s → Failing e s → Q.err e s) :
    Spec H P (x >>= f) Q :=
  hx.bind (fun a => Spec.fact (hf a)) (fun e s h => herr e s h.1 h.2) fun _ h => h.elim

theorem dirBuf {f : List UInt8 → K β}
    (h : ∀ buf, dir <+: buf → Spec H (Sees b top lim dir bkt) (f buf) Q) :
    Spec H (Sees b top lim dir bkt) (Containers.dirBuf >>= f) Q :=
  fun s hs hh => h s.ram.dirBuf hs.dir s hs hh

theorem bktBuf {f : List UInt8 → K β}
    (h : ∀ buf, bkt <+: buf → Spec H (Sees b top lim dir bkt) (f buf) Q) :
    Spec H (Sees b top lim dir bkt) (Containers.bktBuf >>= f) Q :=
  fun s hs hh => h s.ram.bktBuf hs.bkt s hs hh

theorem ram {f : KvRam → K β}
    (h : ∀ r, dir <+: r.dirBuf → (r.keyInlineMax, r.valInlineMax) = lim →
      Spec H (Sees b top lim dir bkt) (f r) Q) :
    Spec H (Sees b top lim dir bkt) (Containers.getRam >>= f) Q :=
  fun s hs hh => h s.ram hs.dir hs.lim s hs hh

theorem setDirBuf (dir' : List UInt8) {g : List UInt8 → List UInt8} {f : Unit → K β}
    (hg : ∀ buf, dir <+: buf → dir' <+: g buf)
    (h : Spec H (Sees b top lim dir' bkt) (f ()) Q) :
    Spec H (Sees b top lim dir bkt) (Containers.setDirBuf g >>= f) Q :=
  fun _ hs hh => h _ ⟨hs.blobs, hs.top, hs.lim, hg _ hs.dir, hs.bkt⟩ hh

theorem setBktBuf (bkt' : List UInt8) {g : List UInt8 → List UInt8} {f : Unit → K β}
    (hg : ∀ buf, bkt <+: buf → bkt' <+: g buf)
    (h : Spec H (Sees b top lim dir bkt') (f ()) Q) :
    Spec H (Sees b top lim dir bkt) (Containers.setBktBuf g >>= f) Q :=
  fun _ hs hh => h _ ⟨hs.blobs, hs.top, hs.lim, hs.dir, hg _ hs.bkt⟩ hh

end Spec

variable (hH : ∀ w, H.holds w → telling.holds w)

include hH

/-! Loads -/

omit hH in
theorem prefix_overwrite (data buf : List UInt8) : data <+: overwrite buf 0 data :=
  ⟨buf.drop (0 + data.length), by simp [overwrite]⟩

theorem blobDbGet_spec {id sz : Nat} {data : List UInt8} (hb : b id = some data)
    (hlen : data.length ≤ sz) :
    Spec H (Sees b top lim dir bkt) (blobDbGet id sz) (readPost b top lim dir bkt (data = ·)) := by
  refine Spec.blobDbGet ?_ ?_ ?_ ?_
  . intro s d hs hd _
    rw [hs.blobs, hb] at hd
    exact ⟨Option.some.inj hd, hs.readDone⟩
  . intro s hs hd
    rw [hs.blobs, hb] at hd
    cases hd
  . intro s d hs hd hbig
    rw [hs.blobs, hb] at hd
    cases hd
    omega
  . intro s e hs hh
    exact ⟨(hs.readFailed id e).idle, failing_read hH hh⟩

theorem getDir_spec {id : Nat} {data : List UInt8} (hb : b id = some data)
    (hlen : data.length ≤ cfg.maxPayload) :
    Spec H (Sees b top lim dir bkt) (getDir cfg id)
      (readPost b top lim data bkt (· = data.length)) := by
  refine Spec.reads (blobDbGet_spec hH hb hlen) ?_ fun e s hs he => ⟨hs, he⟩
  rintro _ rfl
  refine Spec.setDirBuf data (fun buf _ => prefix_overwrite data buf) ?_
  exact Spec.ret fun s hs => ⟨rfl, hs⟩

theorem getBkt_spec {id : Nat} {data : List UInt8} (hb : b id = some data)
    (hlen : data.length ≤ cfg.maxPayload) :
    Spec H (Sees b top lim dir bkt) (getBkt cfg id)
      (readPost b top lim dir data (· = data.length)) := by
  refine Spec.reads (blobDbGet_spec hH hb hlen) ?_ fun e s hs he => ⟨hs, he⟩
  rintro _ rfl
  refine Spec.setBktBuf data (fun buf _ => prefix_overwrite data buf) ?_
  exact Spec.ret fun s hs => ⟨rfl, hs⟩

theorem dirLoadRaw_spec {id magic version depth n : Nat} {child : Nat → Nat}
    (hok : DirOk cfg.toStoreCfg magic version depth n)
    (hb : b id = some (dirImage magic version depth n child)) :
    Spec H (Sees b top lim dir bkt) (dirLoadRaw cfg id)
      (readPost b top lim (dirImage magic version depth n child) bkt
        (· = ⟨n, depth, magic = kvhashDirDying⟩)) := by
  have hlen : (dirImage magic version depth n child).length ≤ cfg.maxPayload := by
    rw [dirImage_length]
    exact hok.fits
  refine Spec.reads (getDir_spec hH hb hlen) ?_ fun e s hs he => ⟨hs, he⟩
  rintro _ rfl
  refine Spec.dirBuf ?_
  rintro _ ⟨rest, rfl⟩
  rw [dirImage_length, hok.check]
  exact Spec.ret fun s hs => ⟨rfl, hs⟩

theorem dirLoad_spec {id version depth n : Nat} {child : Nat → Nat}
    (hok : DirOk cfg.toStoreCfg kvhashDirMagic version depth n)
    (hb : b id = some (dirImage kvhashDirMagic version depth n child)) :
    Spec H (Sees b top lim dir bkt) (dirLoad cfg id)
      (readPost b top lim (dirImage kvhashDirMagic version depth n child) bkt
        (· = ⟨n, depth, false⟩)) := by
  refine Spec.reads (dirLoadRaw_spec hH hok hb) ?_ fun e s hs he => ⟨hs, he⟩
  rintro _ rfl
  exact Spec.ret fun s hs => ⟨rfl, hs⟩

/-! Keys -/

-- The source holds the key `k`.
def KeySrc.Is (b : Blobs) (k : List UInt8) : KeySrc → Prop
  | .ram p => k <+: p
  | .blob id => id ≠ 0 ∧ b id = some k

theorem keyChunk_spec {src : KeySrc} {k : List UInt8} (hsrc : src.Is b k) {pos n : Nat}
    (hn : pos + n ≤ k.length) :
    Spec H (Sees b top lim dir bkt) (keyChunk src pos n)
      (readPost b top lim dir bkt (· = (k.drop pos).take n)) := by
  cases src with
  | ram p =>
    obtain ⟨rest, rfl⟩ := hsrc
    refine Spec.ret fun s hs => ⟨?_, hs⟩
    rw [List.drop_append_of_le_length (by omega), List.take_append_of_le_length (by simp; omega)]
  | blob id =>
    obtain ⟨hid, hb⟩ := hsrc
    have hread : Spec H (Sees b top lim dir bkt) (blobDbRead id pos n)
        (readPost b top lim dir bkt (· = (k.drop pos).take n)) := by
      refine Spec.blobDbRead ?_ ?_ ?_
      . intro s d hs hd
        rw [hs.blobs, hb] at hd
        cases hd
        exact ⟨rfl, hs.readDone⟩
      . intro s hs hd
        rw [hs.blobs, hb] at hd
        cases hd
      . intro s e hs hh
        exact ⟨(hs.readFailed id e).idle, failing_read hH hh⟩
    rw [keyChunk, if_neg hid]
    refine hread.attempt.bind ?_ (fun _ _ h => h.elim) fun _ h => h
    rintro (e | bytes)
    . refine Spec.fail fun s hs => ?_
      rw [if_neg hs.2.noent]
      exact hs
    . refine Spec.fact ?_
      rintro rfl
      refine Spec.ite (fun _ => Spec.ret fun s hs => ⟨rfl, hs⟩) fun hlen => absurd ?_ hlen
      rw [List.length_take, List.length_drop]
      omega

omit hH in
theorem compare_append {a a' c c' : List UInt8} (h : a.length = c.length) :
    compare (a ++ a') (c ++ c') = (compare a c).then (compare a' c') := by
  induction a generalizing c with
  | nil =>
    cases c with
    | nil => rfl
    | cons y c => simp at h
  | cons x a ih =>
    cases c with
    | nil => simp at h
    | cons y c =>
      simp only [List.cons_append, List.compare_cons_cons]
      rw [ih (by simpa using h), Ordering.then_assoc]

omit hH in
theorem memcmp_eq {p q k l : List UInt8} {n : Nat} (hp : k <+: p) (hq : l <+: q) (hk : k.length = n)
    (hl : l.length = n) : memcmp p q n = compare k l := by
  obtain ⟨p, rfl⟩ := hp
  obtain ⟨q, rfl⟩ := hq
  rw [memcmp, List.take_left' hk, List.take_left' hl]

theorem keyCmpChunks_spec {a c : KeySrc} {k l : List UInt8} (ha : a.Is b k) (hc : c.Is b l)
    {len : Nat} (hk : k.length = len) (hl : l.length = len) {fuel pos : Nat} (hfuel : len ≤ pos + fuel) :
    Spec H (Sees b top lim dir bkt) (keyCmpChunks a c len fuel pos)
      (readPost b top lim dir bkt (· = compare (k.drop pos) (l.drop pos))) := by
  have hover : ∀ pos, len ≤ pos → Ordering.eq = compare (k.drop pos) (l.drop pos) := by
    intro pos hle
    rw [List.drop_of_length_le (by omega), List.drop_of_length_le (by omega)]
    rfl
  induction fuel generalizing pos with
  | zero => exact Spec.ret fun s hs => ⟨hover pos (by omega), hs⟩
  | succ fuel ih =>
    rw [keyCmpChunks]
    refine Spec.ite ?_ ?_
    . intro hpos
      have hmin : pos + min keyChunkLen (len - pos) ≤ len := by omega
      refine Spec.reads (keyChunk_spec hH ha (by omega)) ?_ fun e s hs he => ⟨hs, he⟩
      rintro _ rfl
      refine Spec.reads (keyChunk_spec hH hc (by omega)) ?_ fun e s hs he => ⟨hs, he⟩
      rintro _ rfl
      have hka : ((k.drop pos).take (min keyChunkLen (len - pos))).length =
          min keyChunkLen (len - pos) := by simp; omega
      have hlc : ((l.drop pos).take (min keyChunkLen (len - pos))).length =
          min keyChunkLen (len - pos) := by simp; omega
      rw [memcmp_eq List.prefix_rfl List.prefix_rfl hka hlc]
      have hsplit : compare (k.drop pos) (l.drop pos) =
          (compare ((k.drop pos).take (min keyChunkLen (len - pos)))
            ((l.drop pos).take (min keyChunkLen (len - pos)))).then
            (compare (k.drop (pos + keyChunkLen)) (l.drop (pos + keyChunkLen))) := by
        have hrest : ∀ m : List UInt8, m.length = len →
            m.drop (pos + keyChunkLen) =
              (m.drop pos).drop (min keyChunkLen (len - pos)) := by
          intro m hm
          rw [List.drop_drop]
          by_cases hshort : keyChunkLen ≤ len - pos
          . rw [Nat.min_eq_left hshort]
          . rw [List.drop_of_length_le (by omega), List.drop_of_length_le (by omega)]
        rw [hrest k hk, hrest l hl, ← compare_append (hka.trans hlc.symm), List.take_append_drop,
          List.take_append_drop]
      refine Spec.ite ?_ ?_
      . intro hne
        refine Spec.ret fun s hs => ⟨?_, hs⟩
        rw [hsplit]
        generalize compare ((k.drop pos).take _) _ = o at hne
        cases o with
        | eq => exact absurd rfl hne
        | lt => rfl
        | gt => rfl
      . intro heq
        rw [hsplit, not_not.mp heq]
        exact ih (by simp only [keyChunkLen]; omega)
    . intro hpos
      exact Spec.ret fun s hs => ⟨hover pos (by omega), hs⟩

theorem keyToScratch_spec {src : KeySrc} {k : List UInt8} (hsrc : src.Is b k) :
    Spec H (Sees b top lim dir bkt) (keyToScratch src k.length)
      (readPost b top lim [] bkt (k <+: ·)) := by
  refine Spec.reads (keyChunk_spec hH hsrc (by omega)) ?_ fun e s hs he => ⟨hs, he⟩
  rintro _ rfl
  rw [List.drop_zero, List.take_length]
  refine Spec.setDirBuf k (fun buf _ => prefix_overwrite k buf) ?_
  exact fun s hs _ => ⟨hs.dir, hs.weaken List.nil_prefix List.prefix_rfl⟩

-- Without `scratch` the directory stays in its buffer.
theorem keyCmpBytes_spec {a c : KeySrc} {k l : List UInt8} (ha : a.Is b k) (hc : c.Is b l)
    {len : Nat} (hk : k.length = len) (hl : l.length = len) (scratch : Bool) :
    Spec H (Sees b top lim dir bkt) (keyCmpBytes cfg a c len scratch)
      (readPost b top lim (if scratch then [] else dir) bkt (· = compare k l)) := by
  have hdir : (if scratch then [] else dir) <+: dir := by
    split
    . exact List.nil_prefix
    . exact List.prefix_rfl
  have hchunks : Spec H (Sees b top lim dir bkt) (keyCmpChunks a c len len 0)
      (readPost b top lim (if scratch then [] else dir) bkt (· = compare k l)) := by
    refine (keyCmpChunks_spec hH ha hc hk hl (by omega)).conseq (fun _ h => h) ?_
      (fun _ _ h => h) fun _ h => h
    intro o s h
    rw [List.drop_zero, List.drop_zero] at h
    exact ⟨h.1, h.2.weaken hdir List.prefix_rfl⟩
  cases a with
  | ram p =>
    cases c with
    | ram q =>
      exact Spec.ret fun s hs =>
        ⟨memcmp_eq ha hc hk hl, hs.weaken hdir List.prefix_rfl⟩
    | blob id =>
      refine Spec.ite (fun h => ?_) fun _ => hchunks
      subst hl
      refine Spec.reads (keyToScratch_spec hH hc) ?_ fun e s hs he => ⟨hs, he⟩
      intro q hq
      rw [if_pos h.1]
      exact Spec.ret fun s hs => ⟨memcmp_eq ha hq hk rfl, hs⟩
  | blob id =>
    cases c with
    | ram q =>
      refine Spec.ite (fun h => ?_) fun _ => hchunks
      subst hk
      refine Spec.reads (keyToScratch_spec hH ha) ?_ fun e s hs he => ⟨hs, he⟩
      intro p hp
      rw [if_pos h.1]
      exact Spec.ret fun s hs => ⟨memcmp_eq hp hc rfl hl, hs⟩
    | blob id' => exact hchunks

end KeyValueDb.Containers
