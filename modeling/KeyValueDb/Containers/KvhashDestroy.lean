import KeyValueDb.Containers.KvhashRuns

/-!
Destroying a map. The root is stamped first, then everything below it goes from the bottom up, and the
root goes last, so that what is left always leads to all that is left.
-/

namespace KeyValueDb.Containers

-- Something in the store has failed.
def Event.Failed : Event → Prop
  | .edit e => ∃ err landed, e.turn = .error err landed
  | .readError _ _ => True

def Trouble (hist : List Event) : Prop := ∃ ev ∈ hist, ev.Failed

theorem Trouble.mono {s t : World KvRam} (hle : s ≤ t) (h : Trouble s.history) : Trouble t.history := by
  obtain ⟨ev, hev, hf⟩ := h
  exact ⟨ev, List.IsSuffix.subset hle hev, hf⟩

theorem ReadFailed.trouble {hist : List Event} (h : ReadFailed hist) : Trouble hist := by
  obtain ⟨id, e, hmem⟩ := h
  exact ⟨_, hmem, trivial⟩

-- The root directory of a map, with a magic.
def Table.rootImage (g : Shape) (tbl : Table) (magic : Nat) : List UInt8 :=
  if g.depth = 1 then dirImage magic g.version 1 g.n fun i => tbl.bid (0, i)
  else dirImage magic g.version 2 g.fan tbl.leaf

-- A part of the map is gone, and with each blob all below it.
structure Partly (g : Shape) (tbl : Table) (b0 b : Blobs) : Prop where
  rest : ∀ id, (∀ r, ¬ tbl.Owns g r id) → b id = b0 id
  same : ∀ r id, tbl.Owns g r id → id ≠ g.root → b id = b0 id ∨ b id = none
  cell : ∀ c, g.In c → tbl.bid c ≠ 0 → b (tbl.bid c) = none → ∀ p ∈ tbl.pairs c,
    (p.kid ≠ 0 → b p.kid = none) ∧ (p.vid ≠ 0 → b p.vid = none)
  leaf : ∀ t < g.fan, b (tbl.leaf t) = none → ∀ i < g.n, tbl.bid (t, i) ≠ 0 →
    b (tbl.bid (t, i)) = none
  top : g.depth = 2 → b g.root = none → ∀ t < g.fan, b (tbl.leaf t) = none

-- What has to be gone before a blob goes.
def Bare (g : Shape) (tbl : Table) (b : Blobs) : Role → Prop
  | .root => ∀ t < g.fan, b (tbl.leaf t) = none
  | .leaf t => ∀ i < g.n, tbl.bid (t, i) ≠ 0 → b (tbl.bid (t, i)) = none
  | .bucket c => ∀ p ∈ tbl.pairs c, (p.kid ≠ 0 → b p.kid = none) ∧ (p.vid ≠ 0 → b p.vid = none)
  | .key _ => True
  | .val _ => True

variable {cfg : KvCfg} {H : Hypothesis (World KvRam)} {g : Shape} {tbl : Table} {b0 b : Blobs}
  {top : Nat} {lim : Nat × Nat} {dir bkt : List UInt8}

theorem update_none_of_none {id i : Nat} (h : b i = none) : Function.update b id none i = none := by
  by_cases he : i = id
  . rw [he, Function.update_self]
  . rw [Function.update_of_ne he, h]

-- One more blob goes.
theorem Partly.delete (h : Partly g tbl b0 b) (hs : Stored cfg g tbl b0 top) {r : Role} {id : Nat}
    (ho : tbl.Owns g r id) (hbare : Bare g tbl b r) :
    Partly g tbl b0 (Function.update b id none) := by
  have hgone : ∀ i, Function.update b id none i = none → i = id ∨ b i = none := by
    intro i hi
    by_cases he : i = id
    . exact .inl he
    . rw [Function.update_of_ne he] at hi
      exact .inr hi
  have hrole : ∀ r' i, tbl.Owns g r' i → i = id → r = r' := by
    rintro r' i ho' rfl
    exact hs.role_unique ho ho'
  constructor
  . intro i hi
    have hne : i ≠ id := by
      rintro rfl
      exact hi r ho
    rw [Function.update_of_ne hne]
    exact h.rest i hi
  . intro r' i ho' hne
    by_cases he : i = id
    . exact .inr (by rw [he, Function.update_self])
    . rw [Function.update_of_ne he]
      exact h.same r' i ho' hne
  . intro c hc hbid hnone p hp
    have hparts : (p.kid ≠ 0 → b p.kid = none) ∧ (p.vid ≠ 0 → b p.vid = none) := by
      rcases hgone _ hnone with he | hnone
      . rw [hrole _ _ (.bucket hc hbid) he] at hbare
        exact hbare p hp
      . exact h.cell c hc hbid hnone p hp
    exact ⟨fun hk => update_none_of_none (hparts.1 hk), fun hv => update_none_of_none (hparts.2 hv)⟩
  . intro t ht hnone i hi hbid
    apply update_none_of_none
    rcases hgone _ hnone with he | hnone
    . rw [hrole _ _ (.leaf ht) he] at hbare
      exact hbare i hi hbid
    . exact h.leaf t ht hnone i hi hbid
  . intro hd hnone t ht
    apply update_none_of_none
    rcases hgone _ hnone with he | hnone
    . rw [hrole _ _ (.root hd) he] at hbare
      exact hbare t ht
    . exact h.top hd hnone t ht

-- The role of the root.
theorem Stored.owns_root (hs : Stored cfg g tbl b0 top) :
    ∃ r, tbl.Owns g r g.root ∧ (r = .root ∧ g.depth = 2 ∨ r = .leaf 0 ∧ g.depth = 1) := by
  rcases hs.shape.levels with ⟨hd, _⟩ | ⟨hd, _⟩
  . refine ⟨.leaf 0, ?_, .inr ⟨rfl, hd⟩⟩
    rw [← hs.one_level hd]
    exact .leaf hs.shape.fan_pos
  . exact ⟨.root, .root hd, .inl ⟨rfl, hd⟩⟩

-- Only a directory is the root.
theorem Stored.not_root (hs : Stored cfg g tbl b0 top) {r : Role} {id : Nat} (ho : tbl.Owns g r id)
    (h1 : r ≠ .root) (h2 : r ≠ .leaf 0) : id ≠ g.root := by
  rintro rfl
  obtain ⟨r0, hor, hrole⟩ := hs.owns_root
  have he := hs.role_unique ho hor
  rcases hrole with ⟨rfl, _⟩ | ⟨rfl, _⟩
  . exact h1 he
  . exact h2 he

-- Without the root nothing of the map is left.
theorem Partly.gone (h : Partly g tbl b0 b) (hs : Stored cfg g tbl b0 top) (hroot : b g.root = none)
    {r : Role} {id : Nat} (ho : tbl.Owns g r id) : b id = none := by
  have hleaf : ∀ t < g.fan, b (tbl.leaf t) = none := by
    rcases hs.shape.levels with ⟨hd, hfan⟩ | ⟨hd, _⟩
    . intro t ht
      obtain rfl : t = 0 := by omega
      rw [hs.one_level hd, hroot]
    . exact h.top hd hroot
  have hbucket : ∀ c, g.In c → tbl.bid c ≠ 0 → b (tbl.bid c) = none :=
    fun c hc hbid => h.leaf c.1 hc.1 (hleaf c.1 hc.1) c.2 hc.2 hbid
  cases ho with
  | root => exact hroot
  | leaf ht => exact hleaf _ ht
  | bucket hc hbid => exact hbucket _ hc hbid
  | @key c p hc hp hk =>
    have hbid : tbl.bid c ≠ 0 := fun h0 => by rw [hs.empty c hc h0] at hp; cases hp
    exact (h.cell c hc hbid (hbucket c hc hbid) p hp).1 hk
  | @val c p hc hp hv =>
    have hbid : tbl.bid c ≠ 0 := fun h0 => by rw [hs.empty c hc h0] at hp; cases hp
    exact (h.cell c hc hbid (hbucket c hc hbid) p hp).2 hv

theorem Partly.stamped (hs : Stored cfg g tbl b0 top) (data : List UInt8) :
    Partly g tbl b0 (Function.update b0 g.root (some data)) := by
  obtain ⟨r, ho, _⟩ := hs.owns_root
  have hsome : ∀ id data', b0 id = some data' → Function.update b0 g.root (some data) id ≠ none := by
    intro id data' hid
    by_cases he : id = g.root
    . rw [he, Function.update_self]
      nofun
    . rw [Function.update_of_ne he, hid]
      nofun
  refine ⟨fun id hid => ?_, fun r' id _ hne => .inl (Function.update_of_ne hne _ _), ?_, ?_, ?_⟩
  . have hne : id ≠ g.root := by
      rintro rfl
      exact hid r ho
    exact Function.update_of_ne hne _ _
  . intro c hc hbid hnone
    exact absurd hnone (hsome _ _ (hs.bucket c hc hbid))
  . intro t ht hnone
    exact absurd hnone (hsome _ _ (hs.leaf_dir t ht))
  . intro _ hnone
    rw [Function.update_self] at hnone
    cases hnone

-- The number of children of the root directory.
def Shape.rootN (g : Shape) : Nat := if g.depth = 1 then g.n else g.fan

def Table.rootChild (g : Shape) (tbl : Table) (i : Nat) : Nat :=
  if g.depth = 1 then tbl.bid (0, i) else tbl.leaf i

theorem Shape.rootN_two (hd : g.depth = 2) : g.rootN = g.fan := if_neg (by omega)

theorem Stored.rootImage_eq (hs : Stored cfg g tbl b0 top) (magic : Nat) :
    tbl.rootImage g magic = dirImage magic g.version g.depth g.rootN (tbl.rootChild g) := by
  rcases hs.shape.levels with ⟨hd, _⟩ | ⟨hd, _⟩
  . rw [Table.rootImage, if_pos hd, Shape.rootN, if_pos hd, hd]
    exact dirImage_congr fun i _ => by rw [Table.rootChild, if_pos hd]
  . rw [Table.rootImage, if_neg (by omega), Shape.rootN_two hd, hd]
    exact dirImage_congr fun i _ => by rw [Table.rootChild, if_neg (by omega)]

theorem Stored.rootOk (hs : Stored cfg g tbl b0 top) {magic : Nat}
    (hm : magic = kvhashDirMagic ∨ magic = kvhashDirDying) :
    DirOk cfg.toStoreCfg magic g.version g.depth g.rootN := by
  rcases hs.shape.levels with ⟨hd, _⟩ | ⟨hd, _⟩
  . have hok := hs.leafOk
    rw [Shape.rootN, if_pos hd, hd]
    exact { hok with magic_eq := hm }
  . have hok := hs.topOk hd
    rw [Shape.rootN_two hd, hd]
    exact { hok with magic_eq := hm }

theorem Stored.root_dir (hs : Stored cfg g tbl b0 top) :
    b0 g.root = some (tbl.rootImage g kvhashDirMagic) := by
  rcases hs.shape.levels with ⟨hd, _⟩ | ⟨hd, _⟩
  . rw [Table.rootImage, if_pos hd, ← hs.one_level hd]
    exact hs.leaf_dir 0 hs.shape.fan_pos
  . rw [Table.rootImage, if_neg (by omega)]
    exact hs.top_dir hd

theorem Stored.leaf_ne_root (hs : Stored cfg g tbl b0 top) (hd : g.depth = 2) {t : Nat}
    (ht : t < g.fan) : tbl.leaf t ≠ g.root := by
  intro he
  have ho : tbl.Owns g .root (tbl.leaf t) := he ▸ .root hd
  cases hs.role_unique (.leaf ht) ho

-- The root is stamped, or it is gone.
structure Doomed (g : Shape) (tbl : Table) (b0 b : Blobs) : Prop where
  partly : Partly g tbl b0 b
  root : b g.root = some (tbl.rootImage g kvhashDirDying) ∨ b g.root = none

def Event.Landed : Event → Prop
  | .edit e => e.turn.landed = true
  | .readError _ _ => False

-- Nothing has been written yet.
structure Whole (b0 : Blobs) (top : Nat) (s : World KvRam) : Prop where
  blobs : s.blobs = b0
  top_le : top ≤ s.top
  still : ∀ ev ∈ s.history, ¬ ev.Landed

/-! Below a stamped root -/

-- The root is stamped, and the blobs with `G` are gone.
structure Raze (g : Shape) (tbl : Table) (b0 : Blobs) (G : Nat → Prop) (dir bkt : List UInt8)
    (s : World KvRam) : Prop where
  partly : Partly g tbl b0 s.blobs
  dying : s.blobs g.root = some (tbl.rootImage g kvhashDirDying)
  gone : ∀ id, G id → s.blobs id = none
  dirBuf : dir <+: s.ram.dirBuf
  bktBuf : bkt <+: s.ram.bktBuf

-- An error is noted only if something has failed.
def Noted (err : Option Errno) (s : World KvRam) : Prop := err ≠ none → Trouble s.history

theorem Noted.mono {err : Option Errno} (s t : World KvRam) (hle : s ≤ t) (h : Noted err s) :
    Noted err t :=
  fun he => (h he).mono hle

variable {G : Nat → Prop} {s : World KvRam}

namespace Raze

theorem weaken (h : Raze g tbl b0 G dir bkt s) {dir' bkt' : List UInt8} (hd : dir' <+: dir)
    (hb : bkt' <+: bkt) : Raze g tbl b0 G dir' bkt' s :=
  ⟨h.partly, h.dying, h.gone, hd.trans h.dirBuf, hb.trans h.bktBuf⟩

theorem idle (h : Raze g tbl b0 G dir bkt s) : Raze g tbl b0 G [] [] s :=
  h.weaken List.nil_prefix List.nil_prefix

theorem more (h : Raze g tbl b0 G dir bkt s) {G' : Nat → Prop} (hG : ∀ id, G' id → s.blobs id = none) :
    Raze g tbl b0 G' dir bkt s :=
  ⟨h.partly, h.dying, hG, h.dirBuf, h.bktBuf⟩

-- Nothing but the buffers has changed.
theorem sees (h : Raze g tbl b0 G dir bkt s) {s' : World KvRam} {top : Nat} {lim : Nat × Nat}
    {dir' bkt' : List UInt8} (hs' : Sees s.blobs top lim dir' bkt' s') :
    Raze g tbl b0 G dir' bkt' s' := by
  refine ⟨?_, ?_, ?_, hs'.dir, hs'.bkt⟩
  . rw [hs'.blobs]
    exact h.partly
  . rw [hs'.blobs]
    exact h.dying
  . rw [hs'.blobs]
    exact h.gone

theorem edited (h : Raze g tbl b0 G dir bkt s) (hs : Stored cfg g tbl b0 top) {r : Role} {id : Nat}
    (ho : tbl.Owns g r id) (hne : id ≠ g.root) (hbare : Bare g tbl s.blobs r) (t : Turn) :
    Raze g tbl b0 G dir bkt (s.edit id none t) := by
  by_cases ht : t.landed = true
  . refine ⟨?_, ?_, ?_, h.dirBuf, h.bktBuf⟩
    all_goals rw [s.edit_blobs id none ht]
    . exact h.partly.delete hs ho hbare
    . rw [Function.update_of_ne hne.symm]
      exact h.dying
    . exact fun i hi => update_none_of_none (h.gone i hi)
  . have hb : (s.edit id none t).blobs = s.blobs := by simp [World.edit, ht]
    refine ⟨?_, ?_, ?_, h.dirBuf, h.bktBuf⟩
    all_goals rw [hb]
    . exact h.partly
    . exact h.dying
    . exact h.gone

end Raze

theorem Spec.razed {α : Type} {x : K α} {Q : Post (World KvRam) Errno α}
    (h : ∀ t, Raze g tbl b0 G dir bkt t →
      Spec H (Sees t.blobs t.top (t.ram.keyInlineMax, t.ram.valInlineMax) dir bkt) x Q) :
    Spec H (Raze g tbl b0 G dir bkt) x Q :=
  fun t ht hh => h t ht t ⟨rfl, rfl, rfl, ht.dirBuf, ht.bktBuf⟩ hh

theorem Spec.razeDir {β : Type} {P : World KvRam → Prop} {Q : Post (World KvRam) Errno β}
    {f : List UInt8 → K β} (hP : ∀ s, P s → dir <+: s.ram.dirBuf)
    (h : ∀ buf, dir <+: buf → Spec H P (f buf) Q) :
    Spec H P (Containers.dirBuf >>= f) Q :=
  fun s hs hh => h s.ram.dirBuf (hP s hs) s hs hh

theorem Spec.razeBkt {β : Type} {Q : Post (World KvRam) Errno β} {f : List UInt8 → K β}
    (h : ∀ buf, bkt <+: buf → Spec H (Raze g tbl b0 G dir bkt) (f buf) Q) :
    Spec H (Raze g tbl b0 G dir bkt) (Containers.bktBuf >>= f) Q :=
  fun s hs hh => h s.ram.bktBuf hs.bktBuf s hs hh

theorem noteErr_none {err : Option Errno} {res : Except Errno Unit} :
    noteErr err res = none ↔ err = none ∧ noteErr none res = none := by
  cases res with
  | ok u => simp [noteErr]
  | error e =>
    cases err with
    | none => simp
    | some e' =>
      simp only [noteErr, reduceCtorEq, and_false, if_false, false_and]

theorem Noted.note {err : Option Errno} {res : Except Errno Unit} (h : Noted err s)
    (h' : Noted (noteErr none res) s) : Noted (noteErr err res) s := by
  intro hne
  by_cases herr : err = none
  . exact h' fun hn => hne (noteErr_none.mpr ⟨herr, hn⟩)
  . exact h herr

-- The root directory is loaded, and what does not depend on reads and buffers stays.
theorem mapRootLoad_spec (hH : ∀ w, H.holds w → telling.holds w) {P : World KvRam → Prop}
    {root magic version depth n : Nat} {child : Nat → Nat}
    (hok : DirOk cfg.toStoreCfg magic version depth n)
    (hroot : ∀ s, P s → s.blobs root = some (dirImage magic version depth n child))
    (hdone : ∀ s, P s → P s.readDone) (hfailed : ∀ s e, P s → P (s.readFailed root e))
    (hram : ∀ s buf, P s → P (s.setRam { s.ram with dirBuf := buf })) :
    Spec H P (dirLoadRaw cfg root)
      ⟨fun d s => d = ⟨n, depth, magic = kvhashDirDying⟩ ∧ P s ∧
          dirImage magic version depth n child <+: s.ram.dirBuf,
        fun e s => P s ∧ e ≠ Errno.ENOENT ∧ Trouble s.history, fun _ => False⟩ := by
  have hlen : (dirImage magic version depth n child).length ≤ cfg.maxPayload := by
    rw [dirImage_length]
    exact hok.fits
  have hget : Spec H P (getDir cfg root)
      ⟨fun k s => k = dirLen n ∧ P s ∧ dirImage magic version depth n child <+: s.ram.dirBuf,
        fun e s => P s ∧ e ≠ Errno.ENOENT ∧ Trouble s.history, fun _ => False⟩ := by
    refine Spec.bind (Q := ⟨fun d s => d = dirImage magic version depth n child ∧ P s,
      fun e s => P s ∧ e ≠ Errno.ENOENT ∧ Trouble s.history, fun _ => False⟩) ?_ (fun d => ?_)
      (fun _ _ h => h) fun _ h => h
    . refine Spec.blobDbGet ?_ ?_ ?_ ?_
      . intro s d h hd _
        rw [hroot s h] at hd
        exact ⟨(Option.some.inj hd).symm, hdone s h⟩
      . intro s h hd
        rw [hroot s h] at hd
        cases hd
      . intro s d h hd hbig
        rw [hroot s h] at hd
        cases hd
        omega
      . intro s e h hh
        have hf := failing_read hH hh
        exact ⟨hfailed s e h, hf.noent, hf.read.trouble⟩
    . refine Spec.fact ?_
      rintro rfl
      exact fun s h _ => ⟨dirImage_length _ _ _ _ _, hram s _ h, prefix_overwrite _ _⟩
  refine hget.bind (fun k => Spec.fact ?_) (fun _ _ h => h) fun _ h => h
  rintro rfl
  refine Spec.razeDir (fun s h => h.2) ?_
  rintro _ ⟨rest, rfl⟩
  rw [hok.check]
  exact Spec.ret fun s h => ⟨rfl, h⟩

section Release

variable (hH : ∀ w, H.holds w → telling.holds w) (hs : Stored cfg g tbl b0 top)

include hH hs

-- Whether the blob is gone can be told from the answer.
theorem razeDelete_spec {r : Role} {id : Nat} (ho : tbl.Owns g r id) (hne : id ≠ g.root)
    (hbare : ∀ s, Raze g tbl b0 G dir bkt s → Bare g tbl s.blobs r) :
    Spec H (Raze g tbl b0 G dir bkt) (Proc.attempt (kvDelete id))
      ⟨fun res s => Raze g tbl b0 G dir bkt s ∧ (noteErr none res = none → s.blobs id = none) ∧
          Noted (noteErr none res) s,
        fun _ _ => False, Raze g tbl b0 G dir bkt⟩ := by
  have hdelete : Spec H (Raze g tbl b0 G dir bkt) (kvDelete id)
      ⟨fun _ s => Raze g tbl b0 G dir bkt s ∧ s.blobs id = none,
        fun e s => Raze g tbl b0 G dir bkt s ∧
          (e = Errno.ENOENT ∧ s.blobs id = none ∨ e.Telling ∧ Trouble s.history),
        Raze g tbl b0 G dir bkt⟩ := by
    refine Spec.blobDbDelete ?_ ?_ ?_ ?_
    . intro s h _
      refine ⟨h.edited hs ho hne (hbare s h) _, ?_⟩
      rw [s.edit_blobs id none rfl, Function.update_self]
    . intro s e landed h _ hh
      have htell := hH _ hh (.edit ⟨id, none, .error e landed, s.blobs⟩) (by simp [World.edit])
      refine ⟨h.edited hs ho hne (hbare s h) _, .inr ⟨htell e landed rfl, ?_⟩⟩
      exact ⟨.edit ⟨id, none, .error e landed, s.blobs⟩, by simp [World.edit], e, landed, rfl⟩
    . exact fun s landed h _ => h.edited hs ho hne (hbare s h) _
    . exact fun s h hnone => ⟨h, .inl ⟨rfl, hnone⟩⟩
  refine hdelete.attempt.conseq (fun _ h => h) ?_ (fun _ _ h => h) fun _ h => h
  rintro (e | u) s ⟨h, hcase⟩
  . refine ⟨h, ?_⟩
    rcases hcase with ⟨rfl, hnone⟩ | ⟨htell, htrouble⟩
    . exact ⟨fun _ => hnone, fun hn => absurd rfl hn⟩
    . have hnote : noteErr none (.error e) = some e := if_pos ⟨htell.1, rfl⟩
      rw [hnote]
      exact ⟨by rintro ⟨⟩, fun _ => htrouble⟩
  . exact ⟨h, fun _ => hcase, fun hn => absurd rfl hn⟩

theorem releaseIds_spec {ids : List Nat} (hids : ∀ id ∈ ids, id ≠ 0 →
      ∃ r, tbl.Owns g r id ∧ ∀ b, Bare g tbl b r) (hne : ∀ id ∈ ids, id ≠ g.root)
    (err : Option Errno) :
    Spec H (fun s => Raze g tbl b0 G dir bkt s ∧ Noted err s) (releaseIds ids err)
      ⟨fun r s => Raze g tbl b0 G dir bkt s ∧ Noted r s ∧
          (r = none → err = none ∧ ∀ id ∈ ids, id ≠ 0 → s.blobs id = none),
        fun _ _ => False, Raze g tbl b0 G dir bkt⟩ := by
  induction ids generalizing G err with
  | nil => exact Spec.ret fun s h => ⟨h.1, h.2, fun herr => ⟨herr, nofun⟩⟩
  | cons id ids ih =>
    have hrest := fun (G : Nat → Prop) => ih (G := G)
      (fun i hi => hids i (List.mem_cons_of_mem _ hi)) fun i hi => hne i (List.mem_cons_of_mem _ hi)
    rw [releaseIds]
    refine Spec.ite (fun h0 => ?_) fun h0 => ?_
    . refine (hrest G err).conseq (fun _ h => h) ?_ (fun _ _ h => h) fun _ h => h
      rintro r s ⟨h, hnoted, hnone⟩
      refine ⟨h, hnoted, fun hr => ⟨(hnone hr).1, fun i hi hi0 => ?_⟩⟩
      rcases List.mem_cons.mp hi with rfl | hi
      . exact absurd h0 hi0
      . exact (hnone hr).2 i hi hi0
    obtain ⟨role, ho, hbare⟩ := hids id List.mem_cons_self h0
    have hdelete : Spec H (Raze g tbl b0 G dir bkt) _ _ :=
      razeDelete_spec hH hs ho (hne id List.mem_cons_self) fun s _ => hbare s.blobs
    refine (hdelete.keeping Noted.mono).bind (fun res => ?_) (fun _ _ h => h.1.elim) fun _ h => h.1
    refine Spec.pre (P := fun s => Raze g tbl b0
        (fun i => G i ∨ noteErr none res = none ∧ i = id) dir bkt s ∧ Noted (noteErr err res) s)
      ((hrest _ (noteErr err res)).conseq (fun _ h => h) ?_ (fun _ _ h => h) ?_) ?_
    . rintro r s ⟨h, hnoted, hnone⟩
      refine ⟨h.more fun i hi => h.gone i (.inl hi), hnoted, fun hr => ?_⟩
      obtain ⟨herr, hgone⟩ := hnone hr
      obtain ⟨herr, hres⟩ := noteErr_none.mp herr
      refine ⟨herr, fun i hi hi0 => ?_⟩
      rcases List.mem_cons.mp hi with rfl | hi
      . exact h.gone i (.inr ⟨hres, rfl⟩)
      . exact hgone i hi hi0
    . exact fun s h => h.more fun i hi => h.gone i (.inl hi)
    . rintro s ⟨⟨h, hgone, hnoted⟩, herr⟩
      refine ⟨h.more ?_, herr.note hnoted⟩
      rintro i (hi | ⟨hres, rfl⟩)
      . exact h.gone i hi
      . exact hgone hres

-- The ids that the entries of a bucket name.
omit hH in
theorem bucketIds_eq {c : Nat × Nat} (hc : g.In c) {buf : List UInt8}
    (hbuf : bktImage cfg (tbl.pairs c) <+: buf) :
    ((bktEnts buf (bktSize (tbl.pairs c))).flatMap fun x => entIds buf x.2) =
      (tbl.pairs c).flatMap fun p => [p.kid, p.vid] := by
  have hfits : ∀ p ∈ tbl.pairs c, p.Fits := fun p hp => (hs.sound c hc p hp).toFits
  have hents : bktEnts buf (bktSize (tbl.pairs c)) = located (bktSize []) (tbl.pairs c) := by
    obtain ⟨rest, rfl⟩ := hbuf
    exact bktEnts_eq hfits rfl
  rw [hents, List.flatMap_def, List.flatMap_def, located_map]
  intro seen p rest hsplit
  have hsplit : tbl.pairs c = seen ++ p :: rest := hsplit
  have hp : p ∈ tbl.pairs c := by simp [hsplit]
  have hshow : Shows cfg buf (bktSize seen) p := shows_split (hsplit ▸ hbuf)
  rw [entIds, hshow.keyId (hfits p hp), hshow.valId (hfits p hp)]

-- A blob of the map is there as it was, or it is gone.
omit hs in
theorem razeGet_spec {r : Role} {id sz : Nat} {data : List UInt8} (ho : tbl.Owns g r id)
    (hne : id ≠ g.root) (hdata : b0 id = some data) (hlen : data.length ≤ sz) :
    Spec H (Raze g tbl b0 G dir bkt) (blobDbGet id sz)
      ⟨fun d s => d = data ∧ Raze g tbl b0 G dir bkt s,
        fun e s => Raze g tbl b0 G dir bkt s ∧
          (e = Errno.ENOENT ∧ s.blobs id = none ∨ e ≠ Errno.ENOENT ∧ Trouble s.history),
        fun _ => False⟩ := by
  refine Spec.blobDbGet ?_ ?_ ?_ ?_
  . intro s d h hd _
    rcases h.partly.same r id ho hne with hb | hb
    . rw [hb, hdata] at hd
      exact ⟨(Option.some.inj hd).symm, h.sees ⟨rfl, rfl, rfl, h.dirBuf, h.bktBuf⟩⟩
    . rw [hb] at hd
      cases hd
  . exact fun s h hnone => ⟨h.sees ⟨rfl, rfl, rfl, h.dirBuf, h.bktBuf⟩, .inl ⟨rfl, hnone⟩⟩
  . intro s d h hd hbig
    rcases h.partly.same r id ho hne with hb | hb
    . rw [hb, hdata] at hd
      cases hd
      omega
    . rw [hb] at hd
      cases hd
  . intro s e h hh
    have hf := failing_read hH hh
    exact ⟨h.sees ⟨rfl, rfl, rfl, h.dirBuf, h.bktBuf⟩, .inr ⟨hf.noent, hf.read.trouble⟩⟩

theorem releaseBucket_spec {c : Nat × Nat} (hc : g.In c) (hbid : tbl.bid c ≠ 0) :
    Spec H (Raze g tbl b0 G dir bkt) (releaseBucket cfg (tbl.bid c))
      ⟨fun _ s => Raze g tbl b0 G dir [] s ∧ s.blobs (tbl.bid c) = none,
        fun _ s => Raze g tbl b0 G dir [] s ∧ Trouble s.history, Raze g tbl b0 G [] []⟩ := by
  have hob : tbl.Owns g (.bucket c) (tbl.bid c) := .bucket hc hbid
  have hne := hs.not_root hob nofun nofun
  have hsmall : (bktImage cfg (tbl.pairs c)).length ≤ cfg.maxPayload := by
    rw [bktImage_length]
    exact hs.small c hc
  have hget : Spec H (Raze g tbl b0 G dir bkt) (getBkt cfg (tbl.bid c))
      ⟨fun n s => n = bktSize (tbl.pairs c) ∧ Raze g tbl b0 G dir (bktImage cfg (tbl.pairs c)) s,
        fun e s => Raze g tbl b0 G dir [] s ∧
          (e = Errno.ENOENT ∧ s.blobs (tbl.bid c) = none ∨ e ≠ Errno.ENOENT ∧ Trouble s.history),
        fun _ => False⟩ := by
    refine (razeGet_spec hH hob hne (hs.bucket c hc hbid) hsmall).bind (fun d => ?_) ?_ fun _ h => h
    . refine Spec.fact ?_
      rintro rfl
      intro s h _
      exact ⟨bktImage_length _ _, h.partly, h.dying, h.gone, h.dirBuf, prefix_overwrite _ _⟩
    . exact fun e s h => ⟨h.1.weaken List.prefix_rfl List.nil_prefix, h.2⟩
  rw [releaseBucket]
  refine hget.attempt.bind ?_ (fun _ _ h => h.elim) fun _ h => h.elim
  rintro (e | used)
  . refine Spec.ite (fun he => Spec.ret fun s h => ⟨h.1, ?_⟩) fun he => Spec.fail fun s h => ⟨h.1, ?_⟩
    . rcases h.2 with ⟨_, hnone⟩ | ⟨hno, _⟩
      . exact hnone
      . exact absurd he hno
    . rcases h.2 with ⟨hno, _⟩ | ⟨_, htrouble⟩
      . exact absurd hno he
      . exact htrouble
  refine Spec.fact ?_
  rintro rfl
  refine Spec.razeBkt fun buf hbuf => ?_
  rw [bucketIds_eq hs hc hbuf]
  have hparts : ∀ id ∈ (tbl.pairs c).flatMap fun p => [p.kid, p.vid], id ≠ 0 →
      ∃ r, tbl.Owns g r id ∧ (∀ b, Bare g tbl b r) ∧ id ≠ g.root := by
    intro id hid h0
    obtain ⟨p, hp, hid⟩ := List.mem_flatMap.mp hid
    simp only [List.mem_cons, List.not_mem_nil, or_false] at hid
    rcases hid with rfl | rfl
    . have ho : tbl.Owns g (.key p.key) p.kid := .key hc hp h0
      exact ⟨_, ho, fun _ => trivial, hs.not_root ho nofun nofun⟩
    . have ho : tbl.Owns g (.val p.key) p.vid := .val hc hp h0
      exact ⟨_, ho, fun _ => trivial, hs.not_root ho nofun nofun⟩
  have hroot : (0 : Nat) ≠ g.root := by
    obtain ⟨r, ho, _⟩ := hs.owns_root
    have := (hs.ids r _ ho).1
    omega
  refine Spec.pre (P := fun s => Raze g tbl b0 G dir (bktImage cfg (tbl.pairs c)) s ∧ Noted none s)
    ?_ fun s h => ⟨h, fun hn => absurd rfl hn⟩
  refine (releaseIds_spec hH hs ?_ ?_ none).bind (fun err => ?_) (fun _ _ h => h.elim)
    fun s h => h.idle
  . intro id hid h0
    obtain ⟨r, ho, hbare, _⟩ := hparts id hid h0
    exact ⟨r, ho, hbare⟩
  . intro id hid
    by_cases h0 : id = 0
    . rw [h0]
      exact hroot
    . obtain ⟨_, _, _, hid⟩ := hparts id hid h0
      exact hid
  cases err with
  | some e =>
    exact Spec.fail fun s h => ⟨h.1.weaken List.prefix_rfl List.nil_prefix, h.2.1 nofun⟩
  | none =>
    refine Spec.pre (P := Raze g tbl b0
        (fun i => G i ∨ i ≠ 0 ∧ i ∈ (tbl.pairs c).flatMap fun p => [p.kid, p.vid]) dir
        (bktImage cfg (tbl.pairs c))) ?_ ?_
    rotate_left
    . rintro s ⟨h, _, hnone⟩
      refine h.more ?_
      rintro i (hi | ⟨h0, hi⟩)
      . exact h.gone i hi
      . exact (hnone rfl).2 i hi h0
    have hbare : ∀ s, Raze g tbl b0
        (fun i => G i ∨ i ≠ 0 ∧ i ∈ (tbl.pairs c).flatMap fun p => [p.kid, p.vid]) dir
        (bktImage cfg (tbl.pairs c)) s → Bare g tbl s.blobs (.bucket c) := by
      intro s h p hp
      refine ⟨fun hk => h.gone _ (.inr ⟨hk, ?_⟩), fun hv => h.gone _ (.inr ⟨hv, ?_⟩)⟩
      . exact List.mem_flatMap.mpr ⟨p, hp, by simp⟩
      . exact List.mem_flatMap.mpr ⟨p, hp, by simp⟩
    refine (razeDelete_spec hH hs hob hne hbare).bind (fun res => ?_) (fun _ _ h => h.elim)
      fun s h => (h.more fun i hi => h.gone i (.inl hi)).idle
    have hback : ∀ s, Raze g tbl b0
        (fun i => G i ∨ i ≠ 0 ∧ i ∈ (tbl.pairs c).flatMap fun p => [p.kid, p.vid]) dir
        (bktImage cfg (tbl.pairs c)) s → Raze g tbl b0 G dir [] s :=
      fun s h => (h.more fun i hi => h.gone i (.inl hi)).weaken List.prefix_rfl List.nil_prefix
    cases res with
    | ok u => exact Spec.ret fun s h => ⟨hback s h.1, h.2.1 rfl⟩
    | error e =>
      refine Spec.ite (fun he => Spec.ret fun s h => ⟨hback s h.1, h.2.1 ?_⟩) fun he =>
        Spec.fail fun s h => ⟨hback s h.1, h.2.2 ?_⟩
      . rw [he]
        rfl
      . have hnote : noteErr none (.error e) = some e := if_pos ⟨he, rfl⟩
        rw [hnote]
        nofun

-- The buckets of a directory, from the one at `i` on.
theorem releaseBuckets_spec {t magic : Nat} (ht : t < g.fan) {k i : Nat} (hk : i + k ≤ g.n)
    (err : Option Errno) :
    Spec H
      (fun s => Raze g tbl b0 G (dirImage magic g.version 1 g.n fun j => tbl.bid (t, j)) bkt s ∧
        Noted err s)
      (releaseBuckets cfg k i err)
      ⟨fun r s => Raze g tbl b0 G [] [] s ∧ Noted r s ∧ (r = none → err = none ∧
          ∀ j, i ≤ j → j < i + k → tbl.bid (t, j) ≠ 0 → s.blobs (tbl.bid (t, j)) = none),
        fun _ _ => False, Raze g tbl b0 G [] []⟩ := by
  induction k generalizing G bkt i err with
  | zero =>
    exact Spec.ret fun s h => ⟨h.1.idle, h.2, fun herr => ⟨herr, fun j _ _ => by omega⟩⟩
  | succ k ih =>
    have hin : g.In (t, i) := ⟨ht, by omega⟩
    -- if the first is gone, the rest is about the later ones
    have hall : ∀ {s : World KvRam}, (tbl.bid (t, i) ≠ 0 → s.blobs (tbl.bid (t, i)) = none) →
        (∀ j, i + 1 ≤ j → j < i + 1 + k → tbl.bid (t, j) ≠ 0 → s.blobs (tbl.bid (t, j)) = none) →
        ∀ j, i ≤ j → j < i + (k + 1) → tbl.bid (t, j) ≠ 0 → s.blobs (tbl.bid (t, j)) = none := by
      intro s hfirst hrest j hij hj hbid
      rcases Nat.eq_or_lt_of_le hij with rfl | hlt
      . exact hfirst hbid
      . exact hrest j hlt (by omega) hbid
    rw [releaseBuckets]
    refine Spec.razeDir (fun s h => h.1.dirBuf) ?_
    rintro _ ⟨rest, rfl⟩
    rw [dirChild_image (by omega) (hs.bid_lt hin)]
    refine Spec.ite (fun h0 => ?_) fun h0 => ?_
    . refine (ih (by omega) err).conseq (fun _ h => h) ?_ (fun _ _ h => h) fun _ h => h
      rintro r s ⟨h, hnoted, hnone⟩
      exact ⟨h, hnoted, fun hr => ⟨(hnone hr).1, hall (fun hbid => absurd h0 hbid) (hnone hr).2⟩⟩
    have hbucket : Spec H (Raze g tbl b0 G
        (dirImage magic g.version 1 g.n fun j => tbl.bid (t, j)) bkt) _ _ :=
      releaseBucket_spec hH hs hin h0
    refine (hbucket.keeping (M := Noted err) Noted.mono).attempt.bind (fun res => ?_)
      (fun _ _ h => h.elim) fun _ h => h.1
    cases res with
    | ok u =>
      refine Spec.pre (P := fun s => Raze g tbl b0 (fun id => G id ∨ id = tbl.bid (t, i))
          (dirImage magic g.version 1 g.n fun j => tbl.bid (t, j)) [] s ∧ Noted err s)
        ((ih (by omega) err).conseq (fun _ h => h) ?_ (fun _ _ h => h) ?_) ?_
      . rintro r s ⟨h, hnoted, hnone⟩
        exact ⟨h.more fun id hid => h.gone id (.inl hid), hnoted, fun hr =>
          ⟨(hnone hr).1, hall (fun _ => h.gone _ (.inr rfl)) (hnone hr).2⟩⟩
      . exact fun s h => h.more fun id hid => h.gone id (.inl hid)
      . rintro s ⟨⟨h, hgone⟩, hnoted⟩
        refine ⟨h.more ?_, hnoted⟩
        rintro id (hid | rfl)
        . exact h.gone id hid
        . exact hgone
    | error e =>
      refine Spec.pre (P := fun s => Raze g tbl b0 G
          (dirImage magic g.version 1 g.n fun j => tbl.bid (t, j)) [] s ∧ Noted (err.or (some e)) s)
        ((ih (by omega) (err.or (some e))).conseq (fun _ h => h) ?_ (fun _ _ h => h) fun _ h => h) ?_
      . rintro r s ⟨h, hnoted, hnone⟩
        refine ⟨h, hnoted, fun hr => ?_⟩
        have := (hnone hr).1
        cases err <;> cases this
      . rintro s ⟨⟨h, htrouble⟩, _⟩
        exact ⟨h, fun _ => htrouble⟩

theorem razeRoot_spec :
    Spec H (Raze g tbl b0 G dir bkt) (dirLoadRaw cfg g.root)
      ⟨fun d s => d = ⟨g.rootN, g.depth, true⟩ ∧
          Raze g tbl b0 G (tbl.rootImage g kvhashDirDying) bkt s,
        fun e s => Raze g tbl b0 G [] [] s ∧ e ≠ Errno.ENOENT ∧ Trouble s.history,
        fun _ => False⟩ := by
  have himg := hs.rootImage_eq kvhashDirDying
  have hload := mapRootLoad_spec hH (P := Raze g tbl b0 G [] bkt) (hs.rootOk (.inr rfl))
    (fun s h => himg ▸ h.dying) (fun s h => ⟨h.partly, h.dying, h.gone, h.dirBuf, h.bktBuf⟩)
    (fun s e h => ⟨h.partly, h.dying, h.gone, h.dirBuf, h.bktBuf⟩)
    fun s buf h => ⟨h.partly, h.dying, h.gone, List.nil_prefix, h.bktBuf⟩
  refine hload.conseq (fun s h => h.weaken List.nil_prefix List.prefix_rfl) ?_ ?_ fun _ h => h
  . rintro d s ⟨rfl, h, hbuf⟩
    exact ⟨rfl, h.partly, h.dying, h.gone, himg ▸ hbuf, h.bktBuf⟩
  . exact fun e s h => ⟨h.1.idle, h.2⟩

-- A sub-map is loaded as it was, or it is gone.
theorem razeSub_spec (hd : g.depth = 2) {t : Nat} (ht : t < g.fan) :
    Spec H (Raze g tbl b0 G dir bkt) (dirLoadRaw cfg (tbl.leaf t))
      ⟨fun d s => d = ⟨g.n, 1, false⟩ ∧ Raze g tbl b0 G
          (dirImage kvhashDirMagic g.version 1 g.n fun i => tbl.bid (t, i)) bkt s,
        fun e s => Raze g tbl b0 G [] [] s ∧
          (e = Errno.ENOENT ∧ s.blobs (tbl.leaf t) = none ∨ e ≠ Errno.ENOENT ∧ Trouble s.history),
        fun _ => False⟩ := by
  have ho : tbl.Owns g (.leaf t) (tbl.leaf t) := .leaf ht
  have hne := hs.leaf_ne_root hd ht
  have hsmall : (dirImage kvhashDirMagic g.version 1 g.n fun i => tbl.bid (t, i)).length ≤
      cfg.maxPayload := by
    rw [dirImage_length]
    exact hs.shape.n_fits
  have hget : Spec H (Raze g tbl b0 G dir bkt) (getDir cfg (tbl.leaf t))
      ⟨fun n s => n = dirLen g.n ∧ Raze g tbl b0 G
          (dirImage kvhashDirMagic g.version 1 g.n fun i => tbl.bid (t, i)) bkt s,
        fun e s => Raze g tbl b0 G [] [] s ∧
          (e = Errno.ENOENT ∧ s.blobs (tbl.leaf t) = none ∨ e ≠ Errno.ENOENT ∧ Trouble s.history),
        fun _ => False⟩ := by
    refine (razeGet_spec hH ho hne (hs.leaf_dir t ht) hsmall).bind (fun d => ?_) ?_ fun _ h => h
    . refine Spec.fact ?_
      rintro rfl
      intro s h _
      exact ⟨dirImage_length _ _ _ _ _, h.partly, h.dying, h.gone, prefix_overwrite _ _, h.bktBuf⟩
    . exact fun e s h => ⟨h.1.idle, h.2⟩
  refine hget.bind (fun n => Spec.fact ?_) (fun _ _ h => h) fun _ h => h
  rintro rfl
  refine Spec.razeDir (fun s h => h.dirBuf) ?_
  rintro _ ⟨rest, rfl⟩
  rw [hs.leafOk.check]
  exact Spec.ret fun s h => ⟨rfl, h⟩

theorem releaseSub_spec (hd : g.depth = 2) {t : Nat} (ht : t < g.fan) :
    Spec H (Raze g tbl b0 G dir bkt) (releaseSub cfg g.root t)
      ⟨fun r s => Raze g tbl b0 G [] [] s ∧ Noted r s ∧ (r = none → s.blobs (tbl.leaf t) = none),
        fun _ _ => False, Raze g tbl b0 G [] []⟩ := by
  have ho : tbl.Owns g (.leaf t) (tbl.leaf t) := .leaf ht
  have hfan := Shape.rootN_two hd
  rw [releaseSub]
  refine (razeRoot_spec hH hs).attempt.bind ?_ (fun _ _ h => h.elim) fun _ h => h.elim
  rintro (e | d)
  . exact Spec.ret fun s h => ⟨h.1, fun _ => h.2.2, nofun⟩
  refine Spec.fact ?_
  rintro rfl
  rw [hfan]
  refine Spec.ite (fun hle => absurd ht (Nat.not_lt.mpr hle)) fun _ => ?_
  refine Spec.razeDir (fun s h => h.dirBuf) ?_
  rintro _ ⟨rest, rfl⟩
  rw [Table.rootImage, if_neg (by omega), dirChild_image ht (hs.leaf_lt ht)]
  refine Spec.ite (fun h0 => absurd h0 (hs.leaf_pos ht)) fun _ => ?_
  refine (razeSub_spec hH hs hd ht).attempt.bind ?_ (fun _ _ h => h.elim) fun _ h => h.elim
  rintro (e | d)
  . refine Spec.ret fun s h => ?_
    rcases h.2 with ⟨rfl, hnone⟩ | ⟨hne, htrouble⟩
    . exact ⟨h.1, fun hn => absurd rfl hn, fun _ => hnone⟩
    . rw [if_neg hne]
      exact ⟨h.1, fun _ => htrouble, nofun⟩
  refine Spec.fact ?_
  rintro rfl
  have hbuckets : Spec H (fun s => Raze g tbl b0 G
      (dirImage kvhashDirMagic g.version 1 g.n fun i => tbl.bid (t, i)) bkt s ∧ Noted none s) _ _ :=
    releaseBuckets_spec hH hs ht (k := g.n) (i := 0) (by omega) none
  refine Spec.pre (hbuckets.bind (fun r => ?_) (fun _ _ h => h.elim) fun _ h => h)
    fun s h => ⟨h, fun hn => absurd rfl hn⟩
  cases r with
  | some e => exact Spec.ret fun s h => ⟨h.1, h.2.1, nofun⟩
  | none =>
    refine Spec.pre (P := Raze g tbl b0
        (fun id => G id ∨ ∃ i < g.n, tbl.bid (t, i) ≠ 0 ∧ id = tbl.bid (t, i)) [] []) ?_ ?_
    rotate_left
    . rintro s ⟨h, _, hnone⟩
      refine h.more ?_
      rintro id (hid | ⟨i, hi, hbid, rfl⟩)
      . exact h.gone id hid
      . exact (hnone rfl).2 i (Nat.zero_le i) (by omega) hbid
    have hback : ∀ s, Raze g tbl b0
        (fun id => G id ∨ ∃ i < g.n, tbl.bid (t, i) ≠ 0 ∧ id = tbl.bid (t, i)) [] [] s →
        Raze g tbl b0 G [] [] s := fun s h => h.more fun id hid => h.gone id (.inl hid)
    have hbare : ∀ s, Raze g tbl b0
        (fun id => G id ∨ ∃ i < g.n, tbl.bid (t, i) ≠ 0 ∧ id = tbl.bid (t, i)) [] [] s →
        Bare g tbl s.blobs (.leaf t) :=
      fun s h i hi hbid => h.gone _ (.inr ⟨i, hi, hbid, rfl⟩)
    refine (razeDelete_spec hH hs ho (hs.leaf_ne_root hd ht) hbare).bind (fun res => ?_)
      (fun _ _ h => h.elim) hback
    exact Spec.ret fun s h => ⟨hback s h.1, h.2.2, h.2.1⟩

-- The sub-maps from the one at `i` on.
theorem releaseSubs_spec (hd : g.depth = 2) {k i : Nat} (hk : i + k ≤ g.fan) (err : Option Errno) :
    Spec H (fun s => Raze g tbl b0 G dir bkt s ∧ Noted err s) (releaseSubs cfg g.root k i err)
      ⟨fun r s => Raze g tbl b0 G [] [] s ∧ Noted r s ∧ (r = none → err = none ∧
          ∀ t, i ≤ t → t < i + k → s.blobs (tbl.leaf t) = none),
        fun _ _ => False, Raze g tbl b0 G [] []⟩ := by
  induction k generalizing G dir bkt i err with
  | zero =>
    exact Spec.ret fun s h => ⟨h.1.idle, h.2, fun herr => ⟨herr, fun t _ _ => by omega⟩⟩
  | succ k ih =>
    have hsub : Spec H (Raze g tbl b0 G dir bkt) _ _ := releaseSub_spec hH hs hd (t := i) (by omega)
    rw [releaseSubs]
    refine (hsub.keeping (M := Noted err) Noted.mono).bind (fun r => ?_) (fun _ _ h => h.1.elim)
      fun _ h => h.1
    refine Spec.pre (P := fun s => Raze g tbl b0 (fun id => G id ∨ r = none ∧ id = tbl.leaf i) [] [] s ∧
        Noted (err.or r) s)
      ((ih (by omega) (err.or r)).conseq (fun _ h => h) ?_ (fun _ _ h => h) ?_) ?_
    . rintro r' s ⟨h, hnoted, hnone⟩
      refine ⟨h.more fun id hid => h.gone id (.inl hid), hnoted, fun hr => ?_⟩
      obtain ⟨hor, hrest⟩ := hnone hr
      obtain ⟨herr, hr⟩ : err = none ∧ r = none := by
        cases err <;> cases r <;> simp_all
      refine ⟨herr, fun t hit ht => ?_⟩
      rcases Nat.eq_or_lt_of_le hit with rfl | hlt
      . exact h.gone _ (.inr ⟨hr, rfl⟩)
      . exact hrest t hlt (by omega)
    . exact fun s h => h.more fun id hid => h.gone id (.inl hid)
    . rintro s ⟨⟨h, hnoted, hgone⟩, herr⟩
      refine ⟨h.more ?_, fun hne => ?_⟩
      . rintro id (hid | ⟨hr, rfl⟩)
        . exact h.gone id hid
        . exact hgone hr
      . cases err with
        | none => exact hnoted (by simpa using hne)
        | some e => exact herr nofun

-- Everything below the root goes, and then the root.
theorem razeAll_spec :
    Spec H (Raze g tbl b0 (fun _ => False) (tbl.rootImage g kvhashDirDying) bkt)
      (do
        let err ←
          if g.depth = 1 then releaseBuckets cfg g.rootN 0 none
          else releaseSubs cfg g.root g.rootN 0 none
        match err with
        | some e => Proc.fail e
        | none => kvDelete g.root)
      ⟨fun _ s => Partly g tbl b0 s.blobs ∧ s.blobs g.root = none,
        fun _ s => Doomed g tbl b0 s.blobs ∧ Trouble s.history, fun s => Doomed g tbl b0 s.blobs⟩ := by
  obtain ⟨role, ho, hrole⟩ := hs.owns_root
  have hdoomed : ∀ s, Raze g tbl b0 (fun _ => False) [] [] s → Doomed g tbl b0 s.blobs :=
    fun s h => ⟨h.partly, .inl h.dying⟩
  have hdelete : ∀ s, Raze g tbl b0 (fun _ => False) [] [] s → Bare g tbl s.blobs role → ∀ t : Turn,
      (t.landed = true → Partly g tbl b0 (s.edit g.root none t).blobs ∧
        (s.edit g.root none t).blobs g.root = none) ∧
      Doomed g tbl b0 (s.edit g.root none t).blobs := by
    intro s h hbare t
    have hlanded : t.landed = true → Partly g tbl b0 (s.edit g.root none t).blobs ∧
        (s.edit g.root none t).blobs g.root = none := by
      intro ht
      rw [s.edit_blobs g.root none ht]
      exact ⟨h.partly.delete hs ho hbare, Function.update_self _ _ _⟩
    refine ⟨hlanded, ?_⟩
    by_cases ht : t.landed = true
    . exact ⟨(hlanded ht).1, .inr (hlanded ht).2⟩
    . have hb : (s.edit g.root none t).blobs = s.blobs := by simp [World.edit, ht]
      rw [hb]
      exact hdoomed s h
  -- what comes after the loop, whichever it was
  have hend : ∀ r, Spec H (fun s => Raze g tbl b0 (fun _ => False) [] [] s ∧ Noted r s ∧
        (r = none → Bare g tbl s.blobs role))
      (match r with
        | some e => Proc.fail e
        | none => kvDelete g.root)
      ⟨fun _ s => Partly g tbl b0 s.blobs ∧ s.blobs g.root = none,
        fun _ s => Doomed g tbl b0 s.blobs ∧ Trouble s.history,
        fun s => Doomed g tbl b0 s.blobs⟩ := by
    intro r
    cases r with
    | some e => exact Spec.fail fun s h => ⟨hdoomed s h.1, h.2.1 (by rintro ⟨⟩)⟩
    | none =>
      refine Spec.blobDbDelete ?_ ?_ ?_ ?_
      . exact fun s h _ => (hdelete s h.1 (h.2.2 rfl) _).1 rfl
      . intro s e landed h _ _
        exact ⟨(hdelete s h.1 (h.2.2 rfl) _).2, .edit ⟨g.root, none, .error e landed, s.blobs⟩,
          by simp [World.edit], e, landed, rfl⟩
      . exact fun s landed h _ => (hdelete s h.1 (h.2.2 rfl) _).2
      . intro s h hnone
        rw [h.1.dying] at hnone
        cases hnone
  refine Spec.ite (fun hd => ?_) fun hd => ?_
  . have hbuckets : Spec H (fun s => Raze g tbl b0 (fun _ => False)
        (dirImage kvhashDirDying g.version 1 g.n fun j => tbl.bid (0, j)) bkt s ∧ Noted none s) _ _ :=
      releaseBuckets_spec hH hs hs.shape.fan_pos (k := g.n) (i := 0) (by omega) none
    obtain rfl : role = .leaf 0 := by
      rcases hrole with ⟨_, h2⟩ | ⟨h1, _⟩
      . omega
      . exact h1
    rw [Shape.rootN, if_pos hd, Table.rootImage, if_pos hd]
    refine Spec.pre (hbuckets.bind (fun r => Spec.pre (hend r) fun s h => ⟨h.1, h.2.1, ?_⟩)
      (fun _ _ h => h.elim) hdoomed) fun s h => ⟨h, fun hn => absurd rfl hn⟩
    exact fun hr i hi hbid => (h.2.2 hr).2 i (Nat.zero_le i) (by omega) hbid
  . have hd : g.depth = 2 := by
      rcases hs.shape.levels with ⟨h1, _⟩ | ⟨h2, _⟩
      . exact absurd h1 hd
      . exact h2
    have hsubs : Spec H (fun s => Raze g tbl b0 (fun _ => False)
        (tbl.rootImage g kvhashDirDying) bkt s ∧ Noted none s) _ _ :=
      releaseSubs_spec hH hs hd (k := g.fan) (i := 0) (by omega) none
    obtain rfl : role = .root := by
      rcases hrole with ⟨h1, _⟩ | ⟨_, h2⟩
      . exact h1
      . omega
    rw [Shape.rootN_two hd]
    refine Spec.pre (hsubs.bind (fun r => Spec.pre (hend r) fun s h => ⟨h.1, h.2.1, ?_⟩)
      (fun _ _ h => h.elim) hdoomed) fun s h => ⟨h, fun hn => absurd rfl hn⟩
    exact fun hr t ht => (h.2.2 hr).2 t (Nat.zero_le t) (by omega)

-- Without the root there is nothing to do.
omit hs in
theorem destroyGone_spec :
    Spec H (fun s => s.blobs = b ∧ b g.root = none) (kvhashDestroy cfg g.root)
      (.stops fun e s => s.blobs = b ∧ (e = Errno.ENOENT ∨ Trouble s.history)) := by
  have hget : Spec H (fun s => s.blobs = b ∧ b g.root = none) (blobDbGet g.root cfg.maxPayload)
      (.stops fun e s => s.blobs = b ∧ (e = Errno.ENOENT ∨ Trouble s.history)) := by
    have hno : ∀ (s : World KvRam) (d : List UInt8), s.blobs = b ∧ b g.root = none →
        s.blobs g.root ≠ some d := by
      rintro s d ⟨rfl, hnone⟩ hd
      rw [hnone] at hd
      cases hd
    refine Spec.blobDbGet ?_ ?_ ?_ ?_
    . exact fun s d h hd => absurd hd (hno s d h)
    . exact fun s h _ => ⟨h.1, .inl rfl⟩
    . exact fun s d h hd => absurd hd (hno s d h)
    . exact fun s e h hh => ⟨h.1, .inr (failing_read hH hh).read.trouble⟩
  exact Spec.stop _ (Spec.stop _ (Spec.stop _ hget))

-- The root is there, and says that the map is going.
theorem destroyDying_spec :
    Spec H (Raze g tbl b0 (fun _ => False) [] []) (kvhashDestroy cfg g.root)
      ⟨fun _ s => Partly g tbl b0 s.blobs ∧ s.blobs g.root = none,
        fun _ s => Doomed g tbl b0 s.blobs ∧ Trouble s.history,
        fun s => Doomed g tbl b0 s.blobs⟩ := by
  refine (razeRoot_spec hH hs).bind (fun d => Spec.fact ?_) ?_ fun _ h => h.elim
  . rintro rfl
    refine Spec.bind (Q := ⟨fun _ => Raze g tbl b0 (fun _ => False)
      (tbl.rootImage g kvhashDirDying) [], fun _ _ => False, fun _ => False⟩)
      (Spec.ret fun _ h => h) (fun _ => ?_) (fun _ _ h => h.elim) fun _ h => h.elim
    exact razeAll_spec hH hs
  . exact fun e s h => ⟨⟨h.1.partly, .inl h.1.dying⟩, h.2.2⟩

-- A map that is going goes on going.
theorem destroyDoomed_spec :
    Spec H (fun s => Doomed g tbl b0 s.blobs) (kvhashDestroy cfg g.root)
      ⟨fun _ s => Partly g tbl b0 s.blobs ∧ s.blobs g.root = none,
        fun e s => Doomed g tbl b0 s.blobs ∧
          (e = Errno.ENOENT ∧ s.blobs g.root = none ∨ Trouble s.history),
        fun s => Doomed g tbl b0 s.blobs⟩ := by
  refine Spec.pre (P := fun s => (∃ b, Partly g tbl b0 b ∧ s.blobs = b ∧ b g.root = none) ∨
    Raze g tbl b0 (fun _ => False) [] [] s) ?_ ?_
  rotate_left
  . rintro s ⟨h, hroot | hroot⟩
    . exact .inr ⟨h, hroot, nofun, List.nil_prefix, List.nil_prefix⟩
    . exact .inl ⟨s.blobs, h, rfl, hroot⟩
  refine Spec.either (Spec.given fun b => Spec.fact fun hp => ?_) ?_
  . refine Spec.assuming (φ := b g.root = none) (fun s h => h.2) fun hnone => ?_
    refine (destroyGone_spec hH).conseq (fun _ h => h) (fun _ _ h => h.elim) ?_ fun _ h => h.elim
    rintro e s ⟨rfl, he⟩
    refine ⟨⟨hp, .inr hnone⟩, ?_⟩
    rcases he with he | he
    . exact .inl ⟨he, hnone⟩
    . exact .inr he
  . exact (destroyDying_spec hH hs).conseq (fun _ h => h) (fun _ _ h => h)
      (fun e s h => ⟨h.1, .inr h.2⟩) fun _ h => h

-- What is so before the first write: the blobs are there, and nothing of it depends on what a read,
-- the RAM or a write that did not take effect change.
structure Standing (b0 : Blobs) (top : Nat) (W : World KvRam → Prop) : Prop where
  blobs : ∀ s, W s → s.blobs = b0
  top_le : ∀ s, W s → top ≤ s.top
  readDone : ∀ s, W s → W s.readDone
  readFailed : ∀ s id e, W s → W (s.readFailed id e)
  ram : ∀ s buf, W s → W (s.setRam { s.ram with dirBuf := buf })
  unlanded : ∀ s id data t, W s → t.landed = false → W (s.edit id data t)

omit hH hs in
theorem Standing.blobs_only : Standing b0 top fun s => s.blobs = b0 ∧ top ≤ s.top where
  blobs _ h := h.1
  top_le _ h := h.2
  readDone _ h := h
  readFailed _ _ _ h := h
  ram _ _ h := h
  unlanded s id data t h ht := by
    refine ⟨?_, h.2⟩
    rw [← h.1]
    simp [World.edit, ht]

omit hH hs in
theorem Whole.standing : Standing b0 top (Whole b0 top) where
  blobs _ h := h.blobs
  top_le _ h := h.top_le
  readDone _ h := ⟨h.blobs, h.top_le, h.still⟩
  readFailed s id e h := by
    refine ⟨h.blobs, h.top_le, fun ev hev => ?_⟩
    rcases List.mem_cons.mp hev with rfl | hev
    . exact not_false
    . exact h.still ev hev
  ram _ _ h := ⟨h.blobs, h.top_le, h.still⟩
  unlanded s id data t h ht := by
    have hb := Standing.blobs_only.unlanded s id data t ⟨h.blobs, h.top_le⟩ ht
    refine ⟨hb.1, hb.2, fun ev hev => ?_⟩
    rcases List.mem_cons.mp hev with rfl | hev
    . simp [Event.Landed, ht]
    . exact h.still ev hev

-- The first write stamps the root.
omit hH in
theorem stampDying_spec {W : World KvRam → Prop} (hW : Standing b0 top W) :
    Spec H (fun s => W s ∧ tbl.rootImage g kvhashDirMagic <+: s.ram.dirBuf)
      (stampDying cfg g.root g.rootN)
      ⟨fun _ => Raze g tbl b0 (fun _ => False) (tbl.rootImage g kvhashDirDying) [],
        fun _ s => (W s ∨ Doomed g tbl b0 s.blobs) ∧
          (Trouble s.history ∨ cfg.maxObject < dirLen g.rootN),
        fun s => W s ∨ Doomed g tbl b0 s.blobs⟩ := by
  obtain ⟨role, ho, _⟩ := hs.owns_root
  have hids := hs.ids _ _ ho
  have hstamped : ∀ s, W s → ∀ t : Turn, t.landed = true →
      Partly g tbl b0 (s.edit g.root (some (tbl.rootImage g kvhashDirDying)) t).blobs ∧
      (s.edit g.root (some (tbl.rootImage g kvhashDirDying)) t).blobs g.root =
        some (tbl.rootImage g kvhashDirDying) := by
    intro s h t ht
    rw [s.edit_blobs _ _ ht, hW.blobs s h]
    exact ⟨Partly.stamped hs _, Function.update_self _ _ _⟩
  have hturn : ∀ s, W s → ∀ t : Turn,
      W (s.edit g.root (some (tbl.rootImage g kvhashDirDying)) t) ∨
        Doomed g tbl b0 (s.edit g.root (some (tbl.rootImage g kvhashDirDying)) t).blobs := by
    intro s h t
    by_cases ht : t.landed = true
    . obtain ⟨hp, hroot⟩ := hstamped s h t ht
      exact .inr ⟨hp, .inl hroot⟩
    . exact .inl (hW.unlanded s _ _ _ h (Bool.eq_false_iff.mpr ht))
  refine Spec.pre (P := fun s => W s ∧ tbl.rootImage g kvhashDirMagic <+: s.ram.dirBuf) ?_
    fun _ h => h
  refine Spec.bind (Q := ⟨fun _ s => W s ∧
      tbl.rootImage g kvhashDirDying <+: s.ram.dirBuf, fun _ _ => False, fun _ => False⟩) ?_
    (fun _ => ?_) (fun _ _ h => h.elim) fun _ h => h.elim
  . intro s h _
    refine ⟨hW.ram s _ h.1, ?_⟩
    obtain ⟨rest, hrest⟩ := h.2
    refine ⟨rest, ?_⟩
    show _ = overwrite s.ram.dirBuf 0 (leBytes kvhashDirDying 4)
    rw [← hrest, hs.rootImage_eq, hs.rootImage_eq, dirImage_stamp]
  . refine Spec.razeDir (fun s h => h.2) ?_
    rintro buf ⟨rest, rfl⟩
    have htake : (tbl.rootImage g kvhashDirDying ++ rest).take (dirLen g.rootN) =
        tbl.rootImage g kvhashDirDying := by
      rw [hs.rootImage_eq]
      exact List.take_left' (dirImage_length _ _ _ _ _)
    rw [htake]
    refine Spec.blobDbUpdate ?_ ?_ ?_ ?_
    . intro s h _
      obtain ⟨hp, hroot⟩ := hstamped s h.1 .done rfl
      exact ⟨hp, hroot, nofun, h.2, List.nil_prefix⟩
    . intro s e landed h _
      exact ⟨hturn s h.1 _, .inl ⟨.edit ⟨g.root, some (tbl.rootImage g kvhashDirDying),
        .error e landed, s.blobs⟩, by simp [World.edit], e, landed, rfl⟩⟩
    . exact fun s landed h _ => hturn s h.1 _
    . rintro s h (h0 | hbig | hlong)
      . omega
      . have := hW.top_le s h.1
        omega
      . refine ⟨.inl h.1, .inr ?_⟩
        rwa [hs.rootImage_eq, dirImage_length] at hlong

theorem destroyStanding_spec {W : World KvRam → Prop} (hW : Standing b0 top W) :
    Spec H W (kvhashDestroy cfg g.root)
      ⟨fun _ s => Partly g tbl b0 s.blobs ∧ s.blobs g.root = none,
        fun _ s => (W s ∨ Doomed g tbl b0 s.blobs) ∧
          (Trouble s.history ∨ cfg.maxObject < dirLen g.rootN),
        fun s => W s ∨ Doomed g tbl b0 s.blobs⟩ := by
  have himg := hs.rootImage_eq kvhashDirMagic
  have hload := mapRootLoad_spec hH (P := W) (hs.rootOk (.inl rfl))
    (fun s h => by rw [hW.blobs s h, hs.root_dir, himg]) hW.readDone
    (fun s e h => hW.readFailed s _ e h) hW.ram
  refine hload.bind (fun d => Spec.fact ?_) (fun e s h => ⟨.inl h.1, .inl h.2.2⟩) fun _ h => h.elim
  rintro rfl
  rw [← himg]
  refine (stampDying_spec hs hW).bind (fun _ => ?_) (fun _ _ h => h) fun _ h => h
  exact (razeAll_spec hH hs).conseq (fun _ h => h) (fun _ _ h => h)
    (fun e s h => ⟨.inr h.1, .inl h.2⟩) fun _ h => .inr h

theorem destroyWhole_spec :
    Spec H (Whole b0 top) (kvhashDestroy cfg g.root)
      ⟨fun _ s => Partly g tbl b0 s.blobs ∧ s.blobs g.root = none,
        fun _ s => (Whole b0 top s ∨ Doomed g tbl b0 s.blobs) ∧
          (Trouble s.history ∨ cfg.maxObject < dirLen g.rootN),
        fun s => Whole b0 top s ∨ Doomed g tbl b0 s.blobs⟩ :=
  destroyStanding_spec hH hs Whole.standing

end Release

end KeyValueDb.Containers
