import KeyValueDb.Containers.Kvhash

/-!
The blobs of a map as images of what they hold: a directory of its children, a bucket of its pairs.
What is written is read back.
-/

namespace KeyValueDb.Containers

theorem overwrite_eq {a b b' c : List UInt8} (h : b.length = b'.length) :
    overwrite (a ++ b ++ c) a.length b' = a ++ b' ++ c := by
  simp [overwrite, ← h]

theorem overwrite_zero {b b' c : List UInt8} (h : b.length = b'.length) :
    overwrite (b ++ c) 0 b' = b' ++ c := overwrite_eq (a := []) h

/-! Directories -/

def dirHead (magic version depth n : Nat) : List UInt8 :=
  leBytes magic 4 ++ leBytes n 2 ++ leBytes version 1 ++ leBytes depth 1

def dirChildren (child : Nat → Nat) (l : List Nat) : List UInt8 :=
  l.flatMap fun i => leBytes (child i) 8

def dirImage (magic version depth n : Nat) (child : Nat → Nat) : List UInt8 :=
  dirHead magic version depth n ++ dirChildren child (List.range n)

@[simp]
theorem dirHead_length (magic version depth n : Nat) :
    (dirHead magic version depth n).length = dirHdrLen := by
  simp [dirHead, dirHdrLen]

@[simp]
theorem dirChildren_length (child : Nat → Nat) (l : List Nat) :
    (dirChildren child l).length = l.length * 8 := by
  induction l with
  | nil => rfl
  | cons i l ih =>
    rw [dirChildren] at ih ⊢
    rw [List.flatMap_cons, List.length_append, ih, leBytes_length, List.length_cons]
    omega

@[simp]
theorem dirImage_length (magic version depth n : Nat) (child : Nat → Nat) :
    (dirImage magic version depth n child).length = dirLen n := by
  simp [dirImage, dirLen]

section DirHead

variable {magic version depth n : Nat} {rest : List UInt8}

theorem dirHead_magic (h : magic < 2 ^ 32) :
    fieldAt (dirHead magic version depth n ++ rest) 0 4 = magic := by
  simp only [dirHead, List.append_assoc]
  exact fieldAt_leBytes _ 4 _ (by omega)

theorem dirHead_n (h : n < 2 ^ 16) : fieldAt (dirHead magic version depth n ++ rest) 4 2 = n := by
  simp only [dirHead, List.append_assoc]
  rw [fieldAt_append _ _ 4 0 2 (by simp)]
  exact fieldAt_leBytes _ 2 _ (by omega)

theorem dirHead_version (h : version < 2 ^ 8) :
    fieldAt (dirHead magic version depth n ++ rest) 6 1 = version := by
  simp only [dirHead, List.append_assoc]
  rw [fieldAt_append _ _ 6 2 1 (by simp), fieldAt_append _ _ 2 0 1 (by simp)]
  exact fieldAt_leBytes _ 1 _ (by omega)

theorem dirHead_depth (h : depth < 2 ^ 8) :
    fieldAt (dirHead magic version depth n ++ rest) 7 1 = depth := by
  simp only [dirHead, List.append_assoc]
  rw [fieldAt_append _ _ 7 3 1 (by simp), fieldAt_append _ _ 3 1 1 (by simp),
    fieldAt_append _ _ 1 0 1 (by simp)]
  exact fieldAt_leBytes _ 1 _ (by omega)

end DirHead

-- The head of a directory that a load accepts.
structure DirOk (cfg : StoreCfg) (magic version depth n : Nat) : Prop where
  magic_eq : magic = kvhashDirMagic ∨ magic = kvhashDirDying
  version_ge : kvhashVersionMin ≤ version
  version_le : version ≤ kvhashVersion
  depth_eq : depth = 1 ∨ depth = 2
  n_ge : 2 ≤ n
  fits : dirLen n ≤ cfg.maxPayload
  payload_le : cfg.maxPayload ≤ entLenMask

namespace DirOk

variable {cfg : StoreCfg} {magic version depth n : Nat} {child : Nat → Nat} {rest : List UInt8}

theorem n_lt (h : DirOk cfg magic version depth n) : n < 2 ^ 16 := by
  have h1 := h.fits
  have h2 := h.payload_le
  simp only [dirLen, dirHdrLen, entLenMask] at h1 h2
  omega

theorem n_le (h : DirOk cfg magic version depth n) : n ≤ cfg.maxBuckets := by
  have h1 := h.fits
  have h2 := h.payload_le
  simp only [dirLen, dirHdrLen, entLenMask] at h1 h2
  simp only [StoreCfg.maxBuckets, dirHdrLen]
  omega

theorem version_eq (h : DirOk cfg magic version depth n) :
    fieldAt (dirImage magic version depth n child ++ rest) 6 1 = version := by
  have hv := h.version_le
  simp only [kvhashVersion] at hv
  rw [dirImage, List.append_assoc, dirHead_version (by omega)]

theorem check (h : DirOk cfg magic version depth n) :
    dirCheck cfg (dirImage magic version depth n child ++ rest) (dirLen n) =
      .ok ⟨n, depth, magic = kvhashDirDying⟩ := by
  have hn := h.n_lt
  have hle := h.n_le
  have hge := h.n_ge
  have hmagic : fieldAt (dirImage magic version depth n child ++ rest) 0 4 = magic := by
    rw [dirImage, List.append_assoc]
    rcases h.magic_eq with rfl | rfl <;> exact dirHead_magic (by decide)
  have hcount : fieldAt (dirImage magic version depth n child ++ rest) 4 2 = n := by
    rw [dirImage, List.append_assoc, dirHead_n hn]
  have hdepth : fieldAt (dirImage magic version depth n child ++ rest) 7 1 = depth := by
    rw [dirImage, List.append_assoc]
    rcases h.depth_eq with rfl | rfl <;> exact dirHead_depth (by decide)
  have hlen : ¬ dirLen n < dirHdrLen := by
    simp only [dirLen]
    omega
  have hm : ¬ (magic ≠ kvhashDirMagic ∧ magic ≠ kvhashDirDying) := by
    rcases h.magic_eq with rfl | rfl <;> simp
  have hv : ¬ (version < kvhashVersionMin ∨ kvhashVersion < version) := by
    have h1 := h.version_ge
    have h2 := h.version_le
    omega
  have hd : ¬ (depth ≠ 1 ∧ depth ≠ 2) := by
    rcases h.depth_eq with rfl | rfl <;> simp
  rw [dirCheck]
  simp only [hmagic, hcount, hdepth, h.version_eq]
  rw [if_neg hlen, if_neg hm, if_neg hv, if_neg (by omega), if_neg hd]

end DirOk

theorem dirChildren_append (child : Nat → Nat) (l l' : List Nat) :
    dirChildren child (l ++ l') = dirChildren child l ++ dirChildren child l' :=
  List.flatMap_append

-- The children before `i`, the child `i`, the children after it.
theorem dirImage_split (magic version depth : Nat) {n : Nat} (child : Nat → Nat) {i : Nat}
    (hi : i < n) :
    dirImage magic version depth n child =
      (dirHead magic version depth n ++ dirChildren child (List.range i)) ++ leBytes (child i) 8 ++
        dirChildren child ((List.range (n - i - 1)).map (i + 1 + ·)) := by
  have hn : n = i + 1 + (n - i - 1) := by omega
  conv =>
    lhs
    rw [dirImage, hn, List.range_add, List.range_succ]
  rw [dirChildren_append, dirChildren_append, ← hn]
  simp [dirChildren]

theorem dirChild_image {magic version depth n : Nat} {child : Nat → Nat} {i : Nat} {rest : List UInt8}
    (hi : i < n) (hid : child i < 2 ^ 64) :
    dirChild (dirImage magic version depth n child ++ rest) i = child i := by
  rw [dirChild, dirImage_split magic version depth child hi, List.append_assoc, List.append_assoc,
    fieldAt_append _ _ _ 0 8 (by simp)]
  exact fieldAt_leBytes _ 8 _ (by omega)

theorem dirChildren_congr {child child' : Nat → Nat} {l : List Nat} (h : ∀ i ∈ l, child i = child' i) :
    dirChildren child l = dirChildren child' l := by
  rw [dirChildren, dirChildren]
  exact List.flatMap_congr fun i hi => by rw [h i hi]

theorem dirImage_congr {magic version depth n : Nat} {child child' : Nat → Nat}
    (h : ∀ i < n, child i = child' i) :
    dirImage magic version depth n child = dirImage magic version depth n child' := by
  rw [dirImage, dirImage, dirChildren_congr fun i hi => h i (List.mem_range.mp hi)]

theorem dirSetChild_image {magic version depth n : Nat} {child : Nat → Nat} {i : Nat}
    {rest : List UInt8} (hi : i < n) (id : Nat) :
    dirSetChild (dirImage magic version depth n child ++ rest) i id =
      dirImage magic version depth n (Function.update child i id) ++ rest := by
  have hpos : dirHdrLen + i * 8 =
      (dirHead magic version depth n ++ dirChildren child (List.range i)).length := by simp
  have hbefore : dirChildren (Function.update child i id) (List.range i) =
      dirChildren child (List.range i) := by
    apply dirChildren_congr
    intro j hj
    have := List.mem_range.mp hj
    exact Function.update_of_ne (by omega) _ _
  have hafter : dirChildren (Function.update child i id)
      ((List.range (n - i - 1)).map (i + 1 + ·)) =
        dirChildren child ((List.range (n - i - 1)).map (i + 1 + ·)) := by
    apply dirChildren_congr
    intro j hj
    obtain ⟨k, _, rfl⟩ := List.mem_map.mp hj
    exact Function.update_of_ne (by omega) _ _
  rw [dirSetChild, hpos, dirImage_split magic version depth child hi, List.append_assoc,
    overwrite_eq (by simp), dirImage_split magic version depth _ hi, hbefore, hafter,
    Function.update_self, List.append_assoc _ _ rest]

theorem dirFormat_eq (buf : List UInt8) (n depth : Nat) :
    dirFormat buf n depth =
      dirImage kvhashDirMagic kvhashVersion depth n (fun _ => 0) ++ buf.drop (dirLen n) := by
  have hzero : List.replicate (n * 8) 0 = dirChildren (fun _ => 0) (List.range n) := by
    induction n with
    | zero => rfl
    | succ n ih =>
      have hchild : dirChildren (fun _ => 0) [n] = List.replicate 8 0 := by
        rw [dirChildren, List.flatMap_singleton]
        decide
      rw [List.range_succ, dirChildren_append, ← ih, hchild, Nat.succ_mul,
        List.replicate_append_replicate]
  have hbytes : leBytes kvhashDirMagic 4 ++ leBytes n 2 ++ leBytes kvhashVersion 1 ++
      leBytes depth 1 ++ List.replicate (n * 8) 0 =
        dirImage kvhashDirMagic kvhashVersion depth n fun _ => 0 := by
    rw [hzero]
    rfl
  rw [dirFormat, hbytes, overwrite, List.take_zero, List.nil_append, dirImage_length, Nat.zero_add]

theorem dirImage_stamp (version depth n : Nat) (child : Nat → Nat) (rest : List UInt8) :
    overwrite (dirImage kvhashDirMagic version depth n child ++ rest) 0 (leBytes kvhashDirDying 4) =
      dirImage kvhashDirDying version depth n child ++ rest := by
  simp only [dirImage, dirHead, List.append_assoc]
  exact overwrite_zero (by simp)

/-! Buckets -/

-- An entry of a bucket: a key, its value, and the blobs they are in, 0 if they are in the entry.
structure Pair where
  key : List UInt8
  val : List UInt8
  kid : Nat
  vid : Nat
  deriving Repr, DecidableEq

namespace Pair

def placement (p : Pair) : Placement := ⟨p.kid ≠ 0, p.vid ≠ 0⟩

def size (p : Pair) : Nat := entNeed p.key p.val p.placement

def image (cfg : KvCfg) (p : Pair) : List UInt8 :=
  entBytes p.key p.val p.placement (keyFp cfg p.key) p.kid p.vid

-- Its lengths and ids fit their fields.
structure Fits (p : Pair) : Prop where
  key_pos : 0 < p.key.length
  key_lt : p.key.length < 2 ^ 15
  val_lt : p.val.length < 2 ^ 15
  kid_lt : p.kid < 2 ^ 64
  vid_lt : p.vid < 2 ^ 64

-- The parse of its entry at `off`.
def ent (p : Pair) (off : Nat) : Ent where
  len := p.size
  kl := p.key.length
  vl := p.val.length
  kspill := p.kid ≠ 0
  vspill := p.vid ≠ 0
  kpos := off + entryHdrLen
  vpos := off + entryHdrLen + if p.kid ≠ 0 then keyRefLen else p.key.length

end Pair

theorem entBytes_length (key val : List UInt8) (p : Placement) (fp : UInt32) (kid vid : Nat) :
    (entBytes key val p fp kid vid).length = entNeed key val p := by
  unfold entBytes entNeed
  cases p.kspill <;> cases p.vspill <;> simp [entryHdrLen, keyRefLen, valRefLen] <;> omega

@[simp]
theorem Pair.image_length (cfg : KvCfg) (p : Pair) : (p.image cfg).length = p.size :=
  entBytes_length _ _ _ _ _ _

theorem Pair.size_ge (p : Pair) : entryHdrLen ≤ p.size := by
  rw [Pair.size, entNeed]
  omega

def bktImage (cfg : KvCfg) (ps : List Pair) : List UInt8 := ps.flatMap (Pair.image cfg)

def bktSize (ps : List Pair) : Nat := (ps.map Pair.size).sum

@[simp]
theorem bktImage_length (cfg : KvCfg) (ps : List Pair) : (bktImage cfg ps).length = bktSize ps := by
  simp [bktImage, bktSize, List.length_flatMap]

theorem bktImage_append (cfg : KvCfg) (ps qs : List Pair) :
    bktImage cfg (ps ++ qs) = bktImage cfg ps ++ bktImage cfg qs :=
  List.flatMap_append

theorem bktImage_cons (cfg : KvCfg) (p : Pair) (ps : List Pair) :
    bktImage cfg (p :: ps) = p.image cfg ++ bktImage cfg ps := rfl

theorem bktSize_cons (p : Pair) (ps : List Pair) : bktSize (p :: ps) = p.size + bktSize ps := by
  simp [bktSize]

theorem bktSize_append (ps qs : List Pair) : bktSize (ps ++ qs) = bktSize ps + bktSize qs := by
  simp [bktSize]

theorem length_le_bktSize (ps : List Pair) : ps.length ≤ bktSize ps := by
  induction ps with
  | nil => exact Nat.zero_le _
  | cons p ps ih =>
    have := p.size_ge
    rw [bktSize_cons, List.length_cons]
    simp only [entryHdrLen] at this
    omega

theorem flagged_testBit {len : Nat} (h : len < 2 ^ 15) (spill : Bool) :
    (flagged len spill).testBit 15 = spill := by
  rw [Nat.testBit_eq_decide_div_mod_eq, flagged]
  cases spill
  . rw [decide_eq_false_iff_not, if_neg (by decide)]
    omega
  . rw [decide_eq_true_iff, if_pos rfl]
    omega

theorem flagged_mod {len : Nat} (h : len < 2 ^ 15) (spill : Bool) :
    flagged len spill % 2 ^ 15 = len := by
  rw [flagged]
  split <;> omega

theorem flagged_lt {len : Nat} (h : len < 2 ^ 15) (spill : Bool) : flagged len spill < 2 ^ 16 := by
  rw [flagged]
  split <;> omega

theorem fieldAt_drop (buf : List UInt8) (off k w : Nat) :
    fieldAt (buf.drop off) k w = fieldAt buf (off + k) w := by
  rw [fieldAt, fieldAt, List.drop_drop]

-- The entry of `p` stands at `off`.
def Shows (cfg : KvCfg) (buf : List UInt8) (off : Nat) (p : Pair) : Prop :=
  ∃ rest, buf.drop off = p.image cfg ++ rest

namespace Shows

variable {cfg : KvCfg} {buf : List UInt8} {off : Nat} {p : Pair}

theorem lens (h : Shows cfg buf off p) (hp : p.Fits) :
    fieldAt buf off 2 = flagged p.key.length (p.kid ≠ 0) ∧
      fieldAt buf (off + 2) 2 = flagged p.val.length (p.vid ≠ 0) := by
  obtain ⟨rest, hrest⟩ := h
  have h0 := fieldAt_drop buf off 0 2
  have h2 := fieldAt_drop buf off 2 2
  rw [Nat.add_zero] at h0
  rw [hrest, Pair.image, entBytes] at h0 h2
  simp only [List.append_assoc] at h0 h2
  rw [fieldAt_leBytes _ 2 _ (flagged_lt hp.key_lt _)] at h0
  rw [fieldAt_append _ _ 2 0 2 (by simp), fieldAt_leBytes _ 2 _ (flagged_lt hp.val_lt _)] at h2
  exact ⟨h0.symm, h2.symm⟩

theorem entAt_eq (h : Shows cfg buf off p) (hp : p.Fits) : entAt buf off = p.ent off := by
  obtain ⟨hk, hv⟩ := h.lens hp
  unfold entAt
  simp only [hk, hv, flagged_testBit hp.key_lt, flagged_testBit hp.val_lt, flagged_mod hp.key_lt,
    flagged_mod hp.val_lt, decide_eq_true_eq]
  simp only [Pair.ent, Pair.size, entNeed, Pair.placement, decide_eq_true_eq]

-- The key part, and what follows it.
theorem keyPart (h : Shows cfg buf off p) :
    ∃ rest, buf.drop (off + entryHdrLen) =
      (if p.kid ≠ 0 then leBytes (keyFp cfg p.key).toNat 4 ++ leBytes p.kid 8 else p.key) ++
        ((if p.vid ≠ 0 then leBytes p.vid 8 else p.val) ++ rest) := by
  obtain ⟨rest, hrest⟩ := h
  refine ⟨rest, ?_⟩
  rw [← List.drop_drop, hrest, Pair.image, entBytes]
  simp only [List.append_assoc, Pair.placement, decide_eq_true_eq]
  rw [← List.append_assoc (leBytes _ 2) (leBytes _ 2),
    List.drop_append_of_le_length (by simp [entryHdrLen]),
    List.drop_of_length_le (by simp [entryHdrLen]), List.nil_append]

theorem valPart (h : Shows cfg buf off p) :
    ∃ rest, buf.drop (p.ent off).vpos = (if p.vid ≠ 0 then leBytes p.vid 8 else p.val) ++ rest := by
  obtain ⟨rest, hrest⟩ := h.keyPart
  refine ⟨rest, ?_⟩
  rw [Pair.ent, ← List.drop_drop, hrest]
  apply List.drop_left'
  split <;> simp [keyRefLen]

theorem keyRef (h : Shows cfg buf off p) (hp : p.Fits) (hk : p.kid ≠ 0) :
    u32Of buf (p.ent off).kpos = keyFp cfg p.key ∧ fieldAt buf ((p.ent off).kpos + 4) 8 = p.kid := by
  obtain ⟨rest, hrest⟩ := h.keyPart
  rw [if_pos hk, List.append_assoc] at hrest
  have hfp := fieldAt_drop buf (off + entryHdrLen) 0 4
  have hid := fieldAt_drop buf (off + entryHdrLen) 4 8
  have hlt := (keyFp cfg p.key).toNat_lt
  rw [hrest, Nat.add_zero, fieldAt_leBytes _ 4 _ (by omega)] at hfp
  have hkid := hp.kid_lt
  rw [hrest, fieldAt_append _ _ 4 0 8 (by simp), fieldAt_leBytes _ 8 _ (by omega)] at hid
  refine ⟨?_, hid.symm⟩
  rw [u32Of, Pair.ent, ← hfp, UInt32.ofNat_toNat]

-- The key is in the entry.
theorem keyHere (h : Shows cfg buf off p) (hk : p.kid = 0) :
    ∃ rest, buf.drop (p.ent off).kpos = p.key ++ rest := by
  obtain ⟨rest, hrest⟩ := h.keyPart
  rw [if_neg (fun hn => hn hk)] at hrest
  exact ⟨_, hrest⟩

theorem keyId (h : Shows cfg buf off p) (hp : p.Fits) : entKeyId buf (p.ent off) = p.kid := by
  rw [entKeyId]
  by_cases hk : p.kid = 0
  . simp [Pair.ent, hk]
  . rw [if_pos (by simp [Pair.ent, hk]), (h.keyRef hp hk).2]

theorem valId (h : Shows cfg buf off p) (hp : p.Fits) : entValId buf (p.ent off) = p.vid := by
  rw [entValId]
  by_cases hv : p.vid = 0
  . simp [Pair.ent, hv]
  . obtain ⟨rest, hrest⟩ := h.valPart
    have hid := fieldAt_drop buf (p.ent off).vpos 0 8
    have hlt := hp.vid_lt
    rw [hrest, if_pos hv, Nat.add_zero, fieldAt_leBytes _ 8 _ (by omega)] at hid
    rw [if_pos (by simp [Pair.ent, hv]), hid]

theorem fp (h : Shows cfg buf off p) (hp : p.Fits) : entFp cfg buf (p.ent off) = keyFp cfg p.key := by
  rw [entFp]
  by_cases hk : p.kid = 0
  . obtain ⟨rest, hrest⟩ := h.keyHere hk
    rw [if_neg (by simp [Pair.ent, hk]), hrest,
      List.take_left' (show p.key.length = (p.ent off).kl from rfl)]
  . rw [if_pos (by simp [Pair.ent, hk]), (h.keyRef hp hk).1]

end Shows

-- The entries of `ps`, one after the other from `off` on.
def located : Nat → List Pair → List (Nat × Ent)
  | _, [] => []
  | off, p :: ps => (off, p.ent off) :: located (off + p.size) ps

theorem located_length (off : Nat) (ps : List Pair) : (located off ps).length = ps.length := by
  induction ps generalizing off with
  | nil => rfl
  | cons p ps ih => rw [located, List.length_cons, ih, List.length_cons]

theorem bktWalk_eq {cfg : KvCfg} {buf : List UInt8} {used : Nat} {ps : List Pair} {off fuel : Nat}
    {rest : List UInt8} (hps : ∀ p ∈ ps, p.Fits) (hbuf : buf.drop off = bktImage cfg ps ++ rest)
    (hused : used = off + bktSize ps) (hfuel : ps.length ≤ fuel) :
    bktWalk buf used fuel off = located off ps := by
  induction ps generalizing off fuel with
  | nil =>
    cases fuel with
    | zero => rfl
    | succ fuel =>
      have hend : used < off + entryHdrLen := by
        simp only [bktSize, List.map_nil, List.sum_nil, entryHdrLen] at hused ⊢
        omega
      rw [bktWalk, bktEntry, if_pos hend]
      rfl
  | cons p ps ih =>
    cases fuel with
    | zero => exact absurd hfuel (by simp)
    | succ fuel =>
      rw [bktImage_cons, List.append_assoc] at hbuf
      have hshow : Shows cfg buf off p := ⟨_, hbuf⟩
      have hge := p.size_ge
      rw [bktSize_cons] at hused
      have hstay : ¬ used < off + entryHdrLen := by omega
      have hentry : bktEntry buf used off = some (p.ent off) := by
        rw [bktEntry, if_neg hstay, hshow.entAt_eq (hps p (by simp)), if_pos]
        show off + p.size ≤ used
        omega
      rw [bktWalk, hentry, located]
      have hnext : buf.drop (off + p.size) = bktImage cfg ps ++ rest := by
        rw [← List.drop_drop, hbuf, List.drop_left' (p.image_length cfg)]
      rw [← ih (fun q hq => hps q (by simp [hq])) hnext (by omega) (by simpa using hfuel)]
      rfl

theorem bktEnts_eq {cfg : KvCfg} {buf : List UInt8} {ps : List Pair} {rest : List UInt8}
    (hps : ∀ p ∈ ps, p.Fits) (hbuf : buf = bktImage cfg ps ++ rest) :
    bktEnts buf (bktSize ps) = located 0 ps :=
  bktWalk_eq hps (by rw [hbuf, List.drop_zero]) (by omega) (length_le_bktSize ps)

-- The pair after `pre`.
theorem shows_split {cfg : KvCfg} {buf : List UInt8} {pre : List Pair} {p : Pair} {post : List Pair}
    (h : bktImage cfg (pre ++ p :: post) <+: buf) : Shows cfg buf (bktSize pre) p := by
  obtain ⟨rest, rfl⟩ := h
  refine ⟨bktImage cfg post ++ rest, ?_⟩
  rw [bktImage_append, bktImage_cons, List.append_assoc, List.drop_left' (bktImage_length cfg pre),
    List.append_assoc]

theorem bktAppend_prefix (cfg : KvCfg) (ps : List Pair) (p : Pair) (rest : List UInt8) :
    bktImage cfg (ps ++ [p]) <+: overwrite (bktImage cfg ps ++ rest) (bktSize ps) (p.image cfg) := by
  have hone : bktImage cfg [p] = p.image cfg := List.flatMap_singleton ..
  rw [overwrite, List.take_left' (bktImage_length cfg ps), bktImage_append, hone]
  exact List.prefix_append _ _

theorem bktDrop_eq (cfg : KvCfg) (pre : List Pair) (p : Pair) (post : List Pair)
    (rest : List UInt8) :
    ∃ rest', bktDrop (bktImage cfg (pre ++ p :: post) ++ rest) (bktSize (pre ++ p :: post))
      (bktSize pre) p.size = bktImage cfg (pre ++ post) ++ rest' := by
  have hlen := bktImage_length cfg pre
  rw [bktDrop, bktImage_append, bktImage_cons, bktSize_append, bktSize_cons]
  have hskip : ((bktImage cfg pre ++ (p.image cfg ++ bktImage cfg post) ++ rest).drop
      (bktSize pre + p.size)).take (bktSize pre + (p.size + bktSize post) - bktSize pre - p.size) =
        bktImage cfg post := by
    rw [← List.drop_drop, List.append_assoc, List.drop_left' hlen, List.append_assoc,
      List.drop_left' (p.image_length cfg)]
    apply List.take_left'
    rw [bktImage_length]
    omega
  rw [hskip, overwrite, List.append_assoc (bktImage cfg pre), List.take_left' hlen,
    bktImage_append]
  exact ⟨_, rfl⟩

end KeyValueDb.Containers
