import KeyValueDb.Blobfs.Backings
import KeyValueDb.Interfaces.KvdbRuns
import KeyValueDb.Containers.KvhashUnfailing

/-!
What a path means, said of the directories as functions from names to entries, and that walk and resolve
say the same of every path.
-/

namespace KeyValueDb.Blobfs

open Containers Kvdb

-- The entries of the directories.
abbrev Tree := Nat → List UInt8 → Option Dirent

-- The directories that lead on from `root`.
inductive Reach (T : Tree) (root : Nat) : Nat → Prop where
  | root : Reach T root root
  | step {d : Nat} {name : List UInt8} {de : Dirent} (h : Reach T root d) (he : T d name = some de)
      (hdir : de.type = typeDir) : Reach T root de.bodyId

-- One that blobfs wrote.
structure Dirent.Sound (de : Dirent) : Prop where
  type : de.type = typeFile ∨ de.type = typeDir
  version : de.version = direntVersion
  rsvd : de.rsvd < 2 ^ 16
  rsvd2 : de.rsvd2 < 2 ^ 32
  bodyId : de.bodyId < 2 ^ 64

/-! The reference -/

variable (T : Tree) (cfg : FsCfg)

-- The directory of the last of the names, which need not be there, and this name.
def descend : Nat → List (List UInt8) → Except Errno (Nat × List UInt8)
  | dir, [] => .ok (dir, [])
  | dir, name :: names =>
    if name = [dot] ∨ name = [dot, dot] then .error Errno.EINVAL
    else if cfg.nameMax < name.length then .error Errno.ENAMETOOLONG
    else if names = [] then .ok (dir, name)
    else
      match T dir name with
      | none => .error Errno.ENOENT
      | some de => if de.type = typeDir then descend de.bodyId names else .error Errno.ENOTDIR

def refWalk (root : Nat) (path : List UInt8) : Except Errno Where :=
  match descend T cfg root (pathNames path) with
  | .error e => .error e
  | .ok (dir, name) => .ok ⟨dir, name, decide (name ≠ []) && endsInSlash path⟩

def refResolve (root : Nat) (path : List UInt8) : Except Errno (Where × Option Dirent) :=
  match refWalk T cfg root path with
  | .error e => .error e
  | .ok w =>
    if w.name = [] then .ok (w, none)
    else
      match T w.dir w.name with
      | none => .error Errno.ENOENT
      | some de =>
        if w.wantDir ∧ de.type ≠ typeDir then .error Errno.ENOTDIR else .ok (w, some de)

-- The object of a path follows from its names.
theorem refResolve_object {T : Tree} {cfg : FsCfg} {root : Nat} {path : List UInt8}
    {x : Where × Option Dirent} (h : refResolve T cfg root path = .ok x) :
    descend T cfg root (pathNames path) = .ok (x.1.dir, x.1.name) ∧
      x.2 = if x.1.name = [] then none else T x.1.dir x.1.name := by
  rw [refResolve, refWalk] at h
  cases hd : descend T cfg root (pathNames path) with
  | error e =>
    rw [hd] at h
    cases h
  | ok y =>
    rw [hd] at h
    simp only at h
    split at h
    . next hname =>
      cases h
      exact ⟨rfl, (if_pos hname).symm⟩
    . next hname =>
      split at h
      . cases h
      . next de hT =>
        split at h
        . cases h
        . cases h
          exact ⟨rfl, by rw [if_neg hname, hT]⟩

/-! What the code says -/

variable {T} {cfg} {σ : Type} [Preorder σ] {B : Backing σ} {J : σ → Prop} {root : Nat} {s : σ}
  {st : Session}

theorem direntOf_image {de : Dirent} (h : de.Sound) : direntOf de.image = de := by
  have htype : de.type < 256 ^ 1 := by
    rcases h.type with ht | ht <;> simp [ht, typeFile, typeDir]
  have hversion : de.version < 256 ^ 1 := by simp [h.version, direntVersion]
  have h0 : fieldAt de.image 0 1 = de.type := fieldAt_leBytes _ _ _ htype
  have h1 : fieldAt de.image 1 1 = de.version := by
    rw [Dirent.image, fieldAt_append _ _ _ 0 _ (by simp), fieldAt_leBytes _ _ _ hversion]
  have h2 : fieldAt de.image 2 2 = de.rsvd := by
    rw [Dirent.image, fieldAt_append _ _ _ 1 _ (by simp), fieldAt_append _ _ _ 0 _ (by simp),
      fieldAt_leBytes _ _ _ (by simpa using h.rsvd)]
  have h4 : fieldAt de.image 4 4 = de.rsvd2 := by
    rw [Dirent.image, fieldAt_append _ _ _ 3 _ (by simp), fieldAt_append _ _ _ 2 _ (by simp),
      fieldAt_append _ _ _ 0 _ (by simp), fieldAt_leBytes _ _ _ (by simpa using h.rsvd2)]
  have h8 : fieldAt de.image 8 8 = de.bodyId := by
    rw [Dirent.image, fieldAt_append _ _ _ 7 _ (by simp), fieldAt_append _ _ _ 6 _ (by simp),
      fieldAt_append _ _ _ 4 _ (by simp), fieldAt_append _ _ _ 0 _ (by simp),
      ← List.append_nil (leBytes de.bodyId 8), fieldAt_leBytes _ _ _ (by simpa using h.bodyId)]
  rw [direntOf, h0, h1, h2, h4, h8]

theorem direntCheck_image {de : Dirent} (h : de.Sound) : direntCheck de.image = .ok de := by
  have hlen : de.image.length = direntLen := by simp [Dirent.image, direntLen]
  simp only [direntCheck, direntOf_image h, hlen, h.version]
  rcases h.type with ht | ht <;> simp [ht, typeFile, typeDir]

def found : Option Dirent → Except Errno Dirent
  | some de => .ok de
  | none => .error Errno.ENOENT

-- As long as `J` holds, and it goes on to hold, lookups answer what the directories have.
structure Answers (B : Backing σ) (cfg : FsCfg) (J : σ → Prop) (T : Tree) (root : Nat) : Prop where
  sound : ∀ {d name de}, T d name = some de → de.Sound
  get : ∀ {d}, Reach T root d → ∀ {name : List UInt8}, name ≠ [] → name.length ≤ cfg.nameMax →
    ∀ {s}, J s → ∃ s', J s' ∧ B.mapGet d name direntLen s =
      (.of ((found (T d name)).map Dirent.image), s')

theorem direntGet_answers (h : Answers B cfg J T root) {d : Nat} (hd : Reach T root d)
    {name : List UInt8} (hne : name ≠ []) (hlen : name.length ≤ cfg.nameMax) (hs : J s) :
    ∃ s', J s' ∧ direntGet B d name ⟨s, st⟩ = (.of (found (T d name)), ⟨s', st⟩) := by
  obtain ⟨s', hs', hget⟩ := h.get hd hne hlen hs
  refine ⟨s', hs', ?_⟩
  rw [direntGet, Proc.bind_run, Proc.below_run, hget]
  cases hT : T d name with
  | none => rfl
  | some de =>
    show (Proc.ofExcept (direntCheck de.image) : F σ Dirent) ⟨s', st⟩ = _
    rw [direntCheck_image (h.sound hT)]
    rfl

-- By induction on the fuel, along the path.
theorem walkFrom_answers (h : Answers B cfg J T root) {n : Nat} {d : Nat} (hd : Reach T root d)
    {p : List UInt8} (hne : (component p).1 ≠ []) (hlen : p.length ≤ n) (hs : J s) :
    ∃ s', J s' ∧ walkFrom B cfg n d (component p).1 (component p).2 ⟨s, st⟩ =
      (.of (refWalk T cfg d p), ⟨s', st⟩) := by
  induction n generalizing d p s with
  | zero =>
    have := component_shorter hne
    omega
  | succ n ih =>
    have hshort := component_shorter hne
    rw [walkFrom, Proc.bind_run, Proc.ofExcept_run, refWalk, pathNames_component hne, descend, checkName]
    split
    . exact ⟨s, hs, rfl⟩
    . split
      . exact ⟨s, hs, rfl⟩
      . next hbad hlong =>
        simp only [Out.of, Proc.step]
        by_cases hnext : (component (component p).2).1 = []
        . rw [if_pos hnext, if_pos (pathNames_end hnext)]
          refine ⟨s, hs, ?_⟩
          simp [hne, endsInSlash_component hne hnext]
        . have hmore : pathNames (component p).2 ≠ [] := by
            rw [pathNames_component hnext]
            exact List.cons_ne_nil _ _
          obtain ⟨s1, hs1, hget⟩ := (@direntGet_answers _ _ _ _ _ _ _ _ st) h hd hne (by omega) hs
          rw [if_neg hnext, if_neg hmore, Proc.bind_run, hget]
          cases hT : T d (component p).1 with
          | none => exact ⟨s1, hs1, rfl⟩
          | some de =>
            simp only [found, Out.of, Proc.step]
            by_cases hdir : de.type = typeDir
            . obtain ⟨s', hs', hgo⟩ := ih (hd.step hT hdir) hnext (by omega) hs1
              refine ⟨s', hs', ?_⟩
              rw [if_neg (not_not.mpr hdir), if_pos hdir, hgo, refWalk, endsInSlash_after hnext]
              cases descend T cfg de.bodyId (pathNames (component p).2) <;> rfl
            . rw [if_pos hdir, if_neg hdir]
              exact ⟨s1, hs1, rfl⟩

theorem walk_answers (h : Answers B cfg J T root) (hm : st.mounted = true) (hroot : st.dirRoot = root)
    (path : CStr) (hs : J s) :
    ∃ s', J s' ∧ walk B cfg (some path) ⟨s, st⟩ = (.of (refWalk T cfg root path.chars), ⟨s', st⟩) := by
  subst hroot
  have hsession : (session : F σ Session) ⟨s, st⟩ = (.ok st, ⟨s, st⟩) := rfl
  rw [walk, Proc.bind_ok hsession, if_neg (by simp [hm])]
  by_cases hne : (component path.chars).1 = []
  . refine ⟨s, hs, ?_⟩
    rw [refWalk, pathNames_end hne]
    simp only [hne, if_true]
    rfl
  . simp only [hne, if_false]
    exact walkFrom_answers h .root hne le_rfl hs

theorem descend_lands {d d' : Nat} {names : List (List UInt8)} {name : List UInt8} (hr : Reach T root d)
    (h : descend T cfg d names = .ok (d', name)) : Reach T root d' ∧ name.length ≤ cfg.nameMax := by
  induction names generalizing d with
  | nil =>
    cases h
    exact ⟨hr, Nat.zero_le _⟩
  | cons n names ih =>
    rw [descend] at h
    split at h
    . cases h
    . split at h
      . cases h
      . split at h
        . cases h
          exact ⟨hr, by omega⟩
        . split at h
          . cases h
          . next de hT =>
            split at h
            . next hdir => exact ih (hr.step hT hdir) h
            . cases h

theorem refWalk_lands {p : List UInt8} {w : Where} (h : refWalk T cfg root p = .ok w) :
    Reach T root w.dir ∧ w.name.length ≤ cfg.nameMax := by
  rw [refWalk] at h
  split at h
  . cases h
  . next d name hd =>
    cases h
    exact descend_lands .root hd

theorem resolve_answers (h : Answers B cfg J T root) (hm : st.mounted = true)
    (hroot : st.dirRoot = root) (path : CStr) (hs : J s) :
    ∃ s', J s' ∧ resolve B cfg (some path) ⟨s, st⟩ =
      (.of (refResolve T cfg root path.chars), ⟨s', st⟩) := by
  obtain ⟨s1, hs1, hwalk⟩ := walk_answers h hm hroot path hs
  rw [resolve, Proc.bind_run, hwalk, refResolve]
  cases hw : refWalk T cfg root path.chars with
  | error e => exact ⟨s1, hs1, rfl⟩
  | ok w =>
    simp only [Out.of, Proc.step]
    by_cases hname : w.name = []
    . rw [if_pos hname, if_pos hname]
      exact ⟨s1, hs1, rfl⟩
    . obtain ⟨hd, hlen⟩ := refWalk_lands hw
      obtain ⟨s', hs', hget⟩ := (@direntGet_answers _ _ _ _ _ _ _ _ st) h hd hname hlen hs1
      rw [if_neg hname, if_neg hname, Proc.bind_run, hget]
      refine ⟨s', hs', ?_⟩
      cases hT : T w.dir w.name with
      | none => rfl
      | some de =>
        simp only [found, Out.of, Proc.step]
        by_cases hwant : w.wantDir ∧ de.type ≠ typeDir
        . rw [if_pos hwant, if_pos hwant]
          rfl
        . rw [if_neg hwant, if_neg hwant]
          rfl

/-! Directories in the blob store -/

-- The maps of the directories that lead on from `root` hold their entries.
structure TreeAt (cfg : KvCfg) (T : Tree) (root : Nat) (b : Blobs) (top : Nat) : Prop where
  sound : ∀ {d name de}, T d name = some de → de.Sound
  dir : ∀ {d}, Reach T root d → ∃ g tbl, g.root = d ∧ Stored cfg g tbl b top ∧
    tbl.map cfg g = fun name => (T d name).map Dirent.image

variable {kcfg : KvdbCfg} {fs : FsCfg} {w : World KvRam}

-- Only the buffers are touched.
def Leafed (w s : World KvRam) : Prop :=
  w.reads = [] ∧ ∃ r : KvRam, (r.keyInlineMax, r.valInlineMax) = (w.ram.keyInlineMax, w.ram.valInlineMax) ∧
    s = w.setRam r

theorem Leafed.refl (h : w.reads = []) : Leafed w w := ⟨h, w.ram, rfl, rfl⟩

-- A get that meets no failure.
theorem kvhashGet_told {cfg : KvCfg} {g : Shape} {tbl : Table} {s : World KvRam}
    (h : Stored cfg g tbl s.blobs s.top) (hr : s.reads = []) (hh : s.history = []) {key : List UInt8}
    (hkey : key ≠ []) (hlen : key.length ≤ 0xffff) (outSz : Nat) :
    ∃ r : KvRam, (r.keyInlineMax, r.valInlineMax) = (s.ram.keyInlineMax, s.ram.valInlineMax) ∧
      kvhashGet cfg g.root key outSz s =
        (match tbl.map cfg g key with
          | some v => .ok (fetched outSz v)
          | none => .err Errno.ENOENT, s.setRam r) := by
  have hviews : Views (kvhashGet cfg g.root key outSz) := kvhashGet_views key outSz
  obtain ⟨r, hram⟩ := hviews.looks.run hr
  have hhist : (kvhashGet cfg g.root key outSz s).2.history = [] := by
    rw [hram]
    exact hh
  have hno : ∀ {ev : Event}, ev ∉ (kvhashGet cfg g.root key outSz s).2.history := by
    intro ev hev
    rw [hhist] at hev
    cases hev
  have htell : (telling : Hypothesis (World KvRam)).holds (kvhashGet cfg g.root key outSz s).2 :=
    fun ev hev => (hno hev).elim
  have hpost := kvhashGet_spec (fun _ hw => hw) h key outSz s (sees_self s) htell
  have hran : kvhashGet cfg g.root key outSz s = ((kvhashGet cfg g.root key outSz s).1, s.setRam r) :=
    Prod.ext rfl hram
  generalize kvhashGet cfg g.root key outSz s = x at hpost hno hran
  obtain ⟨o, t⟩ := x
  obtain rfl : t = s.setRam r := congrArg Prod.snd hran
  refine ⟨r, ?_⟩
  cases o with
  | ok a =>
    obtain ⟨⟨v, hv, rfl⟩, hs⟩ := hpost
    rw [hv]
    exact ⟨hs.lim, rfl⟩
  | err e =>
    obtain ⟨hs, ⟨rfl, hnone⟩ | hf | ⟨_, hbad⟩⟩ := hpost
    . rw [hnone]
      exact ⟨hs.lim, rfl⟩
    . obtain ⟨_, _, hev⟩ := hf.read
      exact (hno hev).elim
    . have := List.length_pos_iff.mpr hkey
      omega
  | cut => exact hpost.elim

theorem TreeAt.answers (h : TreeAt kcfg.toKvCfg T root w.blobs w.top) (hw : w.history = []) :
    Answers (kvhashBacking kcfg) fs (Leafed w) T root where
  sound := h.sound
  get := by
    rintro d hd name hne hlen _ ⟨hr, r, hlim, rfl⟩
    obtain ⟨g, tbl, rfl, hstored, hmap⟩ := h.dir hd
    have hlong : name.length ≤ 0xffff := by
      have := fs.name_le
      omega
    have hstored' : Stored kcfg.toKvCfg g tbl (w.setRam r).blobs (w.setRam r).top := hstored
    obtain ⟨r', hlim', hget⟩ := kvhashGet_told hstored' hr hw hne hlong direntLen
    have hT : tbl.map kcfg.toKvCfg g name = (T g.root name).map Dirent.image := congrFun hmap name
    refine ⟨w.setRam r', ⟨hr, r', hlim'.trans hlim, rfl⟩, ?_⟩
    show ((kvhashGet kcfg.toKvCfg g.root name direntLen >>= fetchedBytes : K _) (w.setRam r)) = _
    rw [Proc.bind_run, hget, hT]
    cases T g.root name with
    | none => rfl
    | some de =>
      have hfits : ¬ direntLen < de.image.length := by simp [direntLen, Dirent.image]
      simp only [Option.map_some, fetched, if_neg hfits]
      rfl

theorem answers_still (h : TreeAt kcfg.toKvCfg T root w.blobs w.top) :
    Answers (kvhashBacking kcfg) fs (Leafed w.still) T root := by
  have hstill : TreeAt kcfg.toKvCfg T root w.still.blobs w.still.top := h
  exact hstill.answers rfl

-- Every path is read as its names say, and two that have the same names lead to the same object.
theorem paths_mean {st : Session} (h : TreeAt kcfg.toKvCfg T st.dirRoot w.blobs w.top)
    (hm : st.mounted = true) :
    (∀ path : CStr, (walk (kvhashBacking kcfg) fs (some path) ⟨w.still, st⟩).1 =
        .of (refWalk T fs st.dirRoot path.chars)) ∧
      (∀ path : CStr, (resolve (kvhashBacking kcfg) fs (some path) ⟨w.still, st⟩).1 =
        .of (refResolve T fs st.dirRoot path.chars)) ∧
      ∀ path path' : CStr, pathNames path.chars = pathNames path'.chars →
        ∀ {x x' : Where × Option Dirent},
          (resolve (kvhashBacking kcfg) fs (some path) ⟨w.still, st⟩).1 = .ok x →
          (resolve (kvhashBacking kcfg) fs (some path') ⟨w.still, st⟩).1 = .ok x' →
          x.1.dir = x'.1.dir ∧ x.1.name = x'.1.name ∧ x.2 = x'.2 := by
  have hresolve : ∀ path : CStr, (resolve (kvhashBacking kcfg) fs (some path) ⟨w.still, st⟩).1 =
      .of (refResolve T fs st.dirRoot path.chars) := by
    intro path
    obtain ⟨s', _, hr⟩ := resolve_answers (answers_still h) hm rfl path (Leafed.refl rfl)
    rw [hr]
  refine ⟨fun path => ?_, hresolve, ?_⟩
  . obtain ⟨s', _, hw⟩ := walk_answers (answers_still h) hm rfl path (Leafed.refl rfl)
    rw [hw]
  . intro path path' hnames x x' hx hx'
    rw [hresolve] at hx hx'
    have hd := refResolve_object (Out.of_ok hx)
    have hd' := refResolve_object (Out.of_ok hx')
    rw [← hnames, hd.1] at hd'
    obtain ⟨hdir, hname⟩ := Prod.mk.inj (Except.ok.inj hd'.1)
    refine ⟨hdir, hname, ?_⟩
    rw [hd.2, hd'.2, hdir, hname]

-- A root directory with the file "a" in it.
def oneFile : Tree := fun d name =>
  if d = 2 ∧ name = [97] then some (newDirent typeFile 9) else none

def twelve : FsCfg := ⟨12, by decide, by decide, 72⟩

def oneFileWorld : World KvRam :=
  (lifeOfMap smallMap 2 (some ⟨0, 0, 28⟩) blankMap
    [⟨.set [97] (newDirent typeFile 9).image, [], [], []⟩]).2

theorem oneFile_dir {d : Nat} (hd : Reach oneFile 2 d) : ∃ g tbl, g.root = d ∧ g.n = defaultBuckets ∧
    Stored smallMap g tbl oneFileWorld.blobs oneFileWorld.top ∧
    tbl.map smallMap g = fun name => (oneFile d name).map Dirent.image := by
  -- the file leads nowhere
  obtain rfl : d = 2 := by
    induction hd with
    | root => rfl
    | step _ he hdir =>
      rw [oneFile] at he
      split at he
      . cases he
        cases hdir
      . cases he
  have hmade : MapMade smallMap 2 (some ⟨0, 0, 28⟩) blankMap := blankMap_made (by decide +kernel)
  obtain ⟨geo, hgeo, m, hsteps, hkeeps⟩ := lifeOfMap_keeps hmade
    [⟨.set [97] (newDirent typeFile 9).image, [], [], []⟩] (by decide +kernel)
  have hgeo' : deriveGeometry smallMap (some ⟨0, 0, 28⟩) = some (.ok ⟨1, defaultBuckets, 0⟩) := by
    decide +kernel
  rw [hgeo'] at hgeo
  cases hgeo
  have hreplies : (lifeOfMap smallMap 2 (some ⟨0, 0, 28⟩) blankMap
      [⟨.set [97] (newDirent typeFile 9).image, [], [], []⟩]).1.map KvResult.reply =
      [.ok .done] := by
    decide +kernel
  rw [hreplies] at hsteps
  obtain rfl : m = Function.update (fun _ => none) [97] (some (newDirent typeFile 9).image) := by
    cases hsteps with
    | cons h hs =>
      cases hs
      cases h
      rfl
  rcases hkeeps with ⟨tbl, hstored, hmap⟩ | ⟨_, hnone⟩
  . refine ⟨Geometry.shape ⟨1, defaultBuckets, 0⟩ 2, tbl, rfl, rfl, hstored, ?_⟩
    rw [hmap]
    funext name
    by_cases hname : name = [97] <;> simp [oneFile, hname, Function.update]
  . have := congrFun hnone [97]
    simp at this

theorem oneFile_at : TreeAt smallMap oneFile 2 oneFileWorld.blobs oneFileWorld.top where
  sound := by
    intro d name de h
    rw [oneFile] at h
    split at h
    . cases h
      exact ⟨.inl rfl, rfl, by decide, by decide, by decide⟩
    . cases h
  dir := by
    intro d hd
    obtain ⟨g, tbl, hroot, _, hstored, hmap⟩ := oneFile_dir hd
    exact ⟨g, tbl, hroot, hstored, hmap⟩

theorem paths_mean_file :
    (∀ path : CStr, (walk (kvhashBacking smallKvdb) twelve (some path)
          ⟨oneFileWorld.still, ⟨true, false, false, 1, 2⟩⟩).1 =
        .of (refWalk oneFile twelve 2 path.chars)) ∧
      (∀ path : CStr, (resolve (kvhashBacking smallKvdb) twelve (some path)
          ⟨oneFileWorld.still, ⟨true, false, false, 1, 2⟩⟩).1 =
        .of (refResolve oneFile twelve 2 path.chars)) ∧
      ∀ path path' : CStr, pathNames path.chars = pathNames path'.chars →
        ∀ {x x' : Where × Option Dirent},
          (resolve (kvhashBacking smallKvdb) twelve (some path)
            ⟨oneFileWorld.still, ⟨true, false, false, 1, 2⟩⟩).1 = .ok x →
          (resolve (kvhashBacking smallKvdb) twelve (some path')
            ⟨oneFileWorld.still, ⟨true, false, false, 1, 2⟩⟩).1 = .ok x' →
          x.1.dir = x'.1.dir ∧ x.1.name = x'.1.name ∧ x.2 = x'.2 :=
  paths_mean oneFile_at rfl

-- Slashes at the beginning and between names count as one, one at the end asks for a directory.
example : refResolve oneFile twelve 2 [47, 47, 97] =
    .ok (⟨2, [97], false⟩, some (newDirent typeFile 9)) := by decide +kernel

example : refResolve oneFile twelve 2 [97, 47] = .error Errno.ENOTDIR := by decide +kernel

end KeyValueDb.Blobfs
