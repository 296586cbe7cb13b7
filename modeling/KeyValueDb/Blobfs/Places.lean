import KeyValueDb.Blobfs.Tables

/-!
Paths in the store: walk and resolve lead to the directory and the entry at the place that the path means.
-/

namespace KeyValueDb.Blobfs

open Containers Kvdb Rootreg

-- The store is at rest, and the session is `st`.
def On (b : Items) (top k : Nat) (φ : Prop) (st : Session) (s : WithRam MapStore Session) : Prop :=
  AtRest b top k φ s.base ∧ s.ram = st

-- What the directories hold that lead on from the root.
open Classical in
noncomputable def treeOf (b : Items) (root : Nat) : Tree := fun d name =>
  if ∃ p, (table b).walk root p = some d then
    match b d with
    | some (.map es) => (es.lookup name).map direntOf
    | _ => none
  else none

section

variable {cfg : RegCfg} {fs : FsCfg} {H : Hypothesis (WithRam MapStore Session)} {α : Type} {b : Items}
  {root metaId top k d : Nat} {φ : Prop} {st : Session} {V : Files} {p : List (List UInt8)} {es : Entries}
  {name : List UInt8}

theorem On.fewer {j : Nat} {s : WithRam MapStore Session} (h : On b top k φ st s) (hj : j ≤ k) :
    On b top j φ st s := ⟨h.1.fewer hj, h.2⟩

theorem says_session : Says (On b top k φ st) (session : F MapStore Session) (.ok st) := by
  rintro s ⟨-, rfl⟩
  rfl

theorem setSession_on {f : Session → Session} {Q : Post (WithRam MapStore Session) Errno Unit}
    (hQ : ∀ s, On b top k φ (f st) s → Q.ok () s) : Spec H (On b top k φ st) (setSession f) Q := by
  apply Spec.modify
  rintro s ⟨hs, rfl⟩
  exact hQ _ ⟨hs, rfl⟩

theorem says_below {x : S α} {r : Except Errno α} (hx : Says (AtRest b top k φ) x r) :
    Says (On b top k φ st) (x.below : F MapStore α) r := hx.below fun _ h => h.1

-- A write, of `b'` for `b`, in a session.
theorem below_rewrites {b' : Items} {g : Unit → F MapStore α} {x : S Unit}
    {Q : Post (WithRam MapStore Session) Errno α}
    (hx : ∀ H, Spec H (AtRest b top k φ) x (rewrites b b' top k φ))
    (hg : Spec H (On b' top k φ st) (g ()) Q)
    (hcut : ∀ s, (s.base.items = b ∨ s.base.items = b') → s.base.top = top → Q.cut s) :
    Spec H (On b top k φ st) ((x.below : F MapStore Unit) >>= g) Q := by
  have hbelow : Spec H (On b top k φ st) (x.below : F MapStore Unit)
      ⟨fun _ => On b' top k φ st, fun _ _ => False,
        fun s => (s.base.items = b ∨ s.base.items = b') ∧ s.base.top = top⟩ := by
    rintro s ⟨hs, rfl⟩ -
    have hq := hx ⟨fun _ => True, fun _ h => h⟩ s.base hs trivial
    rw [Proc.below_run]
    generalize x s.base = r at hq
    obtain ⟨o, t⟩ := r
    cases o with
    | ok a => exact ⟨hq, rfl⟩
    | err e => exact hq
    | cut => exact hq
  apply hbelow.bind
  . exact fun _ => hg
  . exact fun _ _ h => h.elim
  . exact fun s h => hcut s h.1 h.2

/-! Directories -/

theorem keyed (fs : FsCfg) (hname : name ≠ []) (hlen : name.length ≤ fs.nameMax) : Keyed name := by
  have hle := fs.name_le
  refine ⟨hname, ?_⟩
  simp only [entLenMask]
  omega

-- What a directory answers of a name.
def entryOf (es : Entries) (name : List UInt8) : Except Errno Dirent :=
  match es.lookup name with
  | some val => .ok (direntOf val)
  | none => .error Errno.ENOENT

theorem says_direntGet (hd : b d = some (.map es)) (hname : Keyed name)
    (hes : ∀ val, es.lookup name = some val → ∃ de : Dirent, de.Sound ∧ val = de.image) :
    Says (On b top k φ st) (direntGet (storeBacking cfg) d name) (entryOf es name) := by
  have hfit : ∀ val, es.lookup name = some val → val.length ≤ direntLen := by
    intro val hval
    obtain ⟨de, -, rfl⟩ := hes val hval
    simp [Dirent.image, direntLen]
  have hget : Says (On b top k φ st) ((mapGet d name direntLen).below : F MapStore _) _ :=
    says_below (says_mapGet hd hname hfit)
  unfold entryOf direntGet
  cases hval : es.lookup name with
  | none =>
    rw [hval] at hget
    exact hget.bind_error
  | some val =>
    rw [hval] at hget
    obtain ⟨de, hsound, rfl⟩ := hes val hval
    apply hget.bind
    rw [direntCheck_image hsound]
    simp only [direntOf_image hsound]
    exact Says.ofExcept _

theorem Built.names (h : Built b root metaId V) (hp : (table b).walk root p = some d)
    (hd : b d = some (.map es)) {val : List UInt8} (hval : es.lookup name = some val) :
    ∃ de : Dirent, de.Sound ∧ val = de.image := by
  obtain ⟨de, hw⟩ := h.entries hp hd hval
  exact ⟨de, hw.sound, hw.image⟩

/-! Walks -/

theorem treeOf_reached (hp : (table b).walk root p = some d) (hd : b d = some (.map es)) :
    treeOf b root d name = (es.lookup name).map direntOf := by
  unfold treeOf
  rw [if_pos ⟨p, hp⟩, hd]

theorem treeOf_some {de : Dirent} (h : treeOf b root d name = some de) :
    ∃ p es val, (table b).walk root p = some d ∧ b d = some (.map es) ∧ es.lookup name = some val ∧
      direntOf val = de := by
  unfold treeOf at h
  split at h
  . next hp =>
    split at h
    . next es hd =>
      obtain ⟨val, hval, hde⟩ := Option.map_eq_some_iff.mp h
      exact ⟨hp.choose, es, val, hp.choose_spec, hd, hval, hde⟩
    . cases h
  . cases h

-- A directory that leads on is reached by a path, and is bound to a map.
theorem Built.reach (h : Built b root metaId V) (hd : Reach (treeOf b root) root d) :
    ∃ p es, (table b).walk root p = some d ∧ b d = some (.map es) := by
  induction hd with
  | root =>
    obtain ⟨es, hes⟩ := h.start
    exact ⟨[], es, rfl, hes⟩
  | step _ he hdir _ =>
    obtain ⟨p, es, val, hp, hd, hval, rfl⟩ := treeOf_some he
    obtain ⟨de, hw⟩ := h.entries hp hd hval
    have hleads := hw.leads
    rw [hw.image, direntOf_image hw.sound] at hdir ⊢
    unfold Leads at hleads
    rw [if_pos hdir] at hleads
    obtain ⟨es', hes'⟩ := hleads
    exact ⟨_, es', hw.walk hp hd hval, hes'⟩

theorem Built.answers (h : Built b root metaId V) {s : MapStore} (hs : AtRest b top k φ s) :
    Answers (storeBacking cfg) fs (· = s) (treeOf b root) root where
  sound := by
    intro d name de he
    obtain ⟨p, es, val, hp, hd, hval, rfl⟩ := treeOf_some he
    obtain ⟨de, hw⟩ := h.entries hp hd hval
    rw [hw.image, direntOf_image hw.sound]
    exact hw.sound
  get := by
    intro d hreach name hname hlen t ht
    subst ht
    obtain ⟨p, es, hp, hd⟩ := h.reach hreach
    refine ⟨t, rfl, ?_⟩
    have hfit : ∀ val, es.lookup name = some val → val.length ≤ direntLen := by
      intro val hval
      obtain ⟨de, -, rfl⟩ := h.names hp hd hval
      simp [Dirent.image, direntLen]
    refine (says_mapGet hd (keyed fs hname hlen) hfit t hs).trans ?_
    rw [treeOf_reached hp hd]
    cases hval : es.lookup name with
    | none => rfl
    | some val =>
      obtain ⟨de, hsound, rfl⟩ := h.names hp hd hval
      simp only [Option.map_some, direntOf_image hsound]
      rfl

theorem Built.view_at (h : Built b root metaId V) {id : Nat} {item : Item} (hp : (table b).walk root p = some id)
    (hb : b id = some item) : V p = some (nodeOf item).obj := by
  rw [← h.view]
  apply Hierarchy.view_eq hp
  rw [table, hb, Option.map_some]

-- What an entry of a directory shows.
theorem Built.view_entry (h : Built b root metaId V) (hp : (table b).walk root p = some d)
    (hd : b d = some (.map es)) (name : List UInt8) :
    match es.lookup name with
    | none => V (p ++ [name]) = none
    | some val => ∃ de item, Written b val de ∧ b de.bodyId = some item ∧
        V (p ++ [name]) = some (nodeOf item).obj := by
  cases hval : es.lookup name with
  | none =>
    show V (p ++ [name]) = none
    rw [← h.view, Hierarchy.view, Hierarchy.walk_snoc hp, Hierarchy.entry_dir (table_map hd), bodiesOf, hval]
    rfl
  | some val =>
    obtain ⟨de, hw⟩ := h.entries hp hd hval
    obtain ⟨item, hitem⟩ := hw.leads.reached
    exact ⟨de, item, hw, hitem, h.view_at (hw.walk hp hd hval) hitem⟩

-- Two ways to the directory of a name: by paths and by ids.
def Lands (b : Items) (root : Nat) (fs : FsCfg) :
    Except Errno (List (List UInt8) × List UInt8) → Except Errno (Nat × List UInt8) → Prop
  | .error e, r => r = .error e
  | .ok (q, n), r => ∃ d es, (table b).walk root q = some d ∧ b d = some (.map es) ∧ r = .ok (d, n) ∧
      n.length ≤ fs.nameMax

theorem Built.descend (h : Built b root metaId V) (names : List (List UInt8)) {p : List (List UInt8)} {d : Nat}
    {es : Entries} (hp : (table b).walk root p = some d) (hd : b d = some (.map es)) :
    Lands b root fs (locate V fs p names) (Blobfs.descend (treeOf b root) fs d names) := by
  induction names generalizing p d es with
  | nil => exact ⟨d, es, hp, hd, rfl, Nat.zero_le _⟩
  | cons name names ih =>
    unfold locate Blobfs.descend
    by_cases hdots : name = [dot] ∨ name = [dot, dot]
    . rw [if_pos hdots, if_pos hdots]
      rfl
    rw [if_neg hdots, if_neg hdots]
    by_cases hlong : fs.nameMax < name.length
    . rw [if_pos hlong, if_pos hlong]
      rfl
    rw [if_neg hlong, if_neg hlong]
    by_cases hlast : names = []
    . rw [if_pos hlast, if_pos hlast]
      exact ⟨d, es, hp, hd, rfl, Nat.not_lt.mp hlong⟩
    rw [if_neg hlast, if_neg hlast, treeOf_reached hp hd]
    have hview := h.view_entry hp hd name
    cases hval : es.lookup name with
    | none =>
      rw [hval] at hview
      rw [hview]
      rfl
    | some val =>
      rw [hval] at hview
      obtain ⟨de, item, hw, hitem, hobj⟩ := hview
      have hleads := hw.leads
      unfold Leads at hleads
      rw [hobj]
      simp only [Option.map_some, hw.image, direntOf_image hw.sound]
      by_cases hdir : de.type = typeDir
      . rw [if_pos hdir] at hleads
        obtain ⟨es', hes'⟩ := hleads
        rw [hitem] at hes'
        cases hes'
        rw [if_pos hdir]
        exact ih (hw.walk hp hd hval) hitem
      . rw [if_neg hdir] at hleads
        obtain ⟨data, hdata⟩ := hleads
        rw [hitem] at hdata
        cases hdata
        rw [if_neg hdir]
        rfl

/-! walk and resolve -/

-- What walk answers for a place.
def WalksTo (b : Items) (root : Nat) (fs : FsCfg) : Except Errno Place → Except Errno Where → Prop
  | .error e, r => r = .error e
  | .ok x, r => ∃ d es, (table b).walk root x.dir = some d ∧ b d = some (.map es) ∧
      r = .ok ⟨d, x.name, x.wantDir⟩ ∧ x.name.length ≤ fs.nameMax

theorem says_walk (h : st.mounted = true → Built b st.dirRoot metaId V) (path : Option CStr) :
    ∃ r, WalksTo b st.dirRoot fs (place fs st.mounted V path) r ∧
      Says (On b top k φ st) (walk (storeBacking cfg) fs path) r := by
  cases path with
  | none => exact ⟨_, rfl, Says.fail _⟩
  | some path =>
    cases hm : st.mounted with
    | false =>
      refine ⟨_, rfl, says_session.bind ?_⟩
      rw [if_pos hm]
      exact Says.fail _
    | true =>
      have h := h hm
      obtain ⟨es, hes⟩ := h.start
      refine ⟨refWalk (treeOf b st.dirRoot) fs st.dirRoot path.chars, ?_, ?_⟩
      . have hlands : Lands b st.dirRoot fs (locate V fs [] (pathNames path.chars)) _ :=
          h.descend (pathNames path.chars) (Hierarchy.walk_nil (table b) st.dirRoot) hes
        unfold place refWalk
        simp only [Bool.true_eq_false, if_false]
        cases hloc : locate V fs [] (pathNames path.chars) with
        | error e =>
          rw [hloc] at hlands
          rw [show Blobfs.descend (treeOf b st.dirRoot) fs st.dirRoot (pathNames path.chars) = .error e from hlands]
          rfl
        | ok x =>
          rw [hloc] at hlands
          obtain ⟨d, es, hd, hb, hdesc, hlen⟩ := hlands
          rw [hdesc]
          exact ⟨d, es, hd, hb, rfl, hlen⟩
      . rintro ⟨s, st'⟩ ⟨hs, hst⟩
        cases hst
        have hanswers : Answers (storeBacking cfg) fs (· = s) (treeOf b st'.dirRoot) st'.dirRoot := h.answers hs
        obtain ⟨s', rfl, hrun⟩ := walk_answers hanswers hm rfl path rfl
        exact hrun

-- The entry of a place, and what it leads to.
structure Entry (b : Items) (root : Nat) (fs : FsCfg) (x : Place) (d : Nat) (es : Entries) (de : Dirent)
    (item : Item) : Prop where
  dir : (table b).walk root x.dir = some d
  map : b d = some (.map es)
  key : Keyed x.name
  length : x.name.length ≤ fs.nameMax
  entry : es.lookup x.name = some de.image
  written : Written b de.image de
  item : b de.bodyId = some item

theorem Entry.isDir {x : Place} {de : Dirent} {item : Item} (h : Entry b root fs x d es de item) :
    (nodeOf item).obj = .dir ↔ de.type = typeDir := by
  have hleads := h.written.leads
  have hitem := h.item
  unfold Leads at hleads
  constructor
  . intro hobj
    by_contra hdir
    rw [if_neg hdir, hitem] at hleads
    obtain ⟨data, hdata⟩ := hleads
    cases hdata
    cases hobj
  . intro hdir
    rw [if_pos hdir, hitem] at hleads
    obtain ⟨es', hes'⟩ := hleads
    cases hes'
    rfl

theorem mounted_of_place {mounted : Bool} {path : Option CStr} {x : Place}
    (h : place fs mounted V path = .ok x) : mounted = true := by
  unfold place at h
  split at h
  . cases h
  . split at h
    . cases h
    . next hm => simpa using hm

section

variable {Q : Post (WithRam MapStore Session) Errno α} (h : st.mounted = true → Built b st.dirRoot metaId V)

include h

theorem walk_rule {path : Option CStr} {f : Where → F MapStore α}
    (herr : ∀ e, place fs st.mounted V path = .error e → ∀ s, On b top k φ st s → Q.err e s)
    (hok : ∀ x d es, place fs st.mounted V path = .ok x → (table b).walk st.dirRoot x.dir = some d →
      b d = some (.map es) → x.name.length ≤ fs.nameMax →
      Spec H (On b top k φ st) (f ⟨d, x.name, x.wantDir⟩) Q) :
    Spec H (On b top k φ st) (walk (storeBacking cfg) fs path >>= f) Q := by
  have hwalk : ∃ r, WalksTo b st.dirRoot fs (place fs st.mounted V path) r ∧
      Says (On b top k φ st) (walk (storeBacking cfg) fs path) r := says_walk h path
  obtain ⟨r, hr, hsays⟩ := hwalk
  cases hx : place fs st.mounted V path with
  | error e =>
    rw [hx] at hr
    obtain rfl := hr
    apply hsays.rule
    . rintro _ ⟨⟩
      exact herr e hx
    . nofun
  | ok x =>
    rw [hx] at hr
    obtain ⟨d, es, hd, hb, rfl, hlen⟩ := hr
    exact hsays.rule_ok (hok x d es hx hd hb hlen)

theorem resolve_rule {path : Option CStr} {f : Where × Option Dirent → F MapStore α}
    (herr : ∀ e, lookup fs st.mounted V path = .error e → ∀ s, On b top k φ st s → Q.err e s)
    (hroot : ∀ x w, lookup fs st.mounted V path = .ok (x, .dir) → x.name = [] →
      Spec H (On b top k φ st) (f (w, none)) Q)
    (hok : ∀ x d es de item, lookup fs st.mounted V path = .ok (x, (nodeOf item).obj) → x.name ≠ [] →
      Entry b st.dirRoot fs x d es de item → V x.path = some (nodeOf item).obj →
      Spec H (On b top k φ st) (f (⟨d, x.name, x.wantDir⟩, some de)) Q) :
    Spec H (On b top k φ st) (resolve (storeBacking cfg) fs path >>= f) Q := by
  unfold resolve
  rw [Proc.bind_assoc]
  apply walk_rule h
  . intro e he
    apply herr
    rw [lookup, he]
  intro x d es hx hd hb hlen
  simp only
  split
  . next hname =>
    apply Spec.ret_bind
    apply hroot x
    . rw [lookup, hx]
      exact if_pos hname
    . exact hname
  next hname =>
  rw [Proc.bind_assoc]
  have hkey := keyed fs hname hlen
  have hb' := h (mounted_of_place hx)
  have hview := hb'.view_entry hd hb x.name
  apply (says_direntGet hb hkey fun _ => hb'.names hd hb).rule
  . intro e he
    apply herr
    cases hval : es.lookup x.name with
    | none =>
      rw [hval] at hview
      rw [entryOf, hval] at he
      cases he
      simp only [lookup, hx, if_neg hname, show V x.path = none from hview]
    | some val =>
      rw [entryOf, hval] at he
      cases he
  intro de hde
  cases hval : es.lookup x.name with
  | none =>
    rw [entryOf, hval] at hde
    cases hde
  | some val =>
    rw [hval] at hview
    obtain ⟨de', item, hw, hitem, hobj⟩ := hview
    have hobj : V x.path = some (nodeOf item).obj := hobj
    rw [entryOf, hval] at hde
    simp only [hw.image, direntOf_image hw.sound, Except.ok.injEq] at hde
    rw [hde] at hw hitem
    have hentry : Entry b st.dirRoot fs x d es de item :=
      ⟨hd, hb, hkey, hlen, hw.image ▸ hval, hw.image ▸ hw, hitem⟩
    split
    . next hwant =>
      apply Spec.fail
      apply herr
      have hobj' : (nodeOf item).obj ≠ .dir := fun ho => hwant.2 (hentry.isDir.mp ho)
      simp only [lookup, hx, if_neg hname, hobj, if_pos (And.intro hwant.1 hobj')]
    . next hwant =>
      apply Spec.ret_bind
      apply hok x d es de item
      . have hno : ¬ (x.wantDir = true ∧ (nodeOf item).obj ≠ .dir) :=
          fun ho => hwant ⟨ho.1, fun hdir => ho.2 (hentry.isDir.mpr hdir)⟩
        simp only [lookup, hx, if_neg hname, hobj, if_neg hno]
      . exact hname
      . exact hentry
      . exact hobj

end

end

end KeyValueDb.Blobfs
