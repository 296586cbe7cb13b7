import KeyValueDb.Blobfs.Mounts
import KeyValueDb.Blobfs.Leftovers

/-!
Runs of calls on a file system, with power lost at any write of any of them: the tree stays a tree, a call
changes what it was given the names of, and a rename that power was lost in leaves one of its two names.
-/

namespace KeyValueDb.Blobfs

open Containers Kvdb Rootreg

abbrev FsWorld := WithRam MapStore Session

def FsOp.run (cfg : RegCfg) (fs : FsCfg) : FsOp → F MapStore FsReply
  | .mount => blobfsMount (storeBacking cfg) fs >>= fun _ => pure .unit
  | .unmount => blobfsUnmount >>= fun _ => pure .unit
  | .create path => blobfsCreate (storeBacking cfg) fs path >>= fun _ => pure .unit
  | .mkdir path => blobfsMkdir (storeBacking cfg) fs path >>= fun _ => pure .unit
  | .unlink path => blobfsUnlink (storeBacking cfg) fs path >>= fun _ => pure .unit
  | .rename src dst => blobfsRename (storeBacking cfg) fs src dst >>= fun _ => pure .unit
  | .stat path => blobfsStat (storeFiles cfg) fs path >>= fun stat => pure (.stat stat)
  | .read path off len => blobfsRead (storeFiles cfg) fs path off len >>= fun data => pure (.bytes data)
  | .write path off buf => blobfsWrite (storeFiles cfg) fs path off buf >>= fun _ => pure .unit
  | .truncate path size => blobfsTruncate (storeFiles cfg) fs path size >>= fun _ => pure .unit

-- The paths that a call is given.
def FsOp.names : FsOp → List (List (List UInt8))
  | .mount => []
  | .unmount => []
  | .create path => given path
  | .mkdir path => given path
  | .unlink path => given path
  | .rename src dst => given src ++ given dst
  | .stat path => given path
  | .read path _ _ => given path
  | .write path _ _ => given path
  | .truncate path _ => given path

-- A call, and what its writes and its allocations meet.
structure FsCall where
  op : FsOp
  fates : List Fate
  allocs : List (Option Nat)

-- Power may be lost, and nothing else goes wrong.
def FsCall.Powered (c : FsCall) : Prop := ∀ f ∈ c.fates, f.Powered

def fsStart (w : FsWorld) (c : FsCall) : FsWorld :=
  ⟨{ w.base with fates := c.fates, allocs := c.allocs, faults := [] }, w.ram⟩

-- After a loss of power there is no session.
def callFs (cfg : RegCfg) (fs : FsCfg) (w : FsWorld) (c : FsCall) : Out Errno FsReply × FsWorld :=
  match c.op.run cfg fs (fsStart w c) with
  | (.cut, s) => (.cut, ⟨s.base, Session.boot⟩)
  | r => r

def runFs (cfg : RegCfg) (fs : FsCfg) (w : FsWorld) (cs : List FsCall) : FsWorld :=
  cs.foldl (fun w c => (callFs cfg fs w c).2) w

/-! What holds of a tree -/

-- Every name in a directory that is reached leads to something of its type, and nothing is reached under two
-- names.
structure TreeSound (b : Items) (root : Nat) : Prop where
  names : ∀ p d es name val, (table b).walk root p = some d → b d = some (.map es) → es.lookup name = some val →
    ∃ de, direntCheck val = .ok de ∧
      if de.type = typeDir then ∃ es', b de.bodyId = some (.map es') else ∃ data, b de.bodyId = some (.blob data)
  unshared : ∀ p q id, (table b).walk root p = some id → (table b).walk root q = some id → p = q

-- What `src` led to has one of the two names.
def OneName (root : Nat) (b b' : Items) (src dst : Option CStr) : Prop :=
  ∃ old new id, given src = [old] ∧ given dst = [new] ∧ (table b).walk root old = some id ∧
    ((table b').walk root old = some id ∧ (table b').walk root new = none ∨
      (table b').walk root old = none ∧ (table b').walk root new = some id)

-- What a call has made of the tree, or a mount after a loss of power in it.
def Kept (root : Nat) (b : Items) (op : FsOp) (cut : Prop) (b' : Items) : Prop :=
  Within op.names root b b' ∧ ∀ src dst, op = .rename src dst → cut → OneName root b b' src dst

section

variable {cfg : RegCfg} {fs : FsCfg} {H : Hypothesis FsWorld} {b b' : Items} {top metaId root : Nat}
  {st : Session} {V : Files} {w : FsWorld} {P : Items → Prop}

theorem Lies.tree (h : Lies cfg fs b top metaId root V) : TreeSound b root where
  names := by
    intro p d es name val hp hd hval
    obtain ⟨de, hw⟩ := h.built.entries hp hd hval
    exact ⟨de, hw.check, hw.leads⟩
  unshared := h.built.unshared

-- The file system that was `b` is there, with `P`, or will be after a mount.
structure Comes (cfg : RegCfg) (fs : FsCfg) (b : Items) (metaId root : Nat) (P : Items → Prop)
    (w : FsWorld) : Prop where
  settled : w.ram.intentPending = false
  session : w.ram.mounted = true → w.ram.metaId = metaId ∧ w.ram.dirRoot = root
  store : (∃ V, Lies cfg fs w.base.items w.base.top metaId root V ∧ P w.base.items) ∨
    w.ram.mounted = false ∧ ∃ V x, Flight cfg fs b root metaId V x w.base.items w.base.top ∧
      ∀ b' top', Settled cfg fs b root metaId V x b' top' → P b'

-- What there can be between calls.
def Valid (cfg : RegCfg) (fs : FsCfg) (w : FsWorld) : Prop :=
  (w.ram.mounted = false ∧ w.ram.intentPending = false ∧ Virgin cfg w.base.items w.base.top) ∨
    ∃ b metaId root, Comes cfg fs b metaId root (fun _ => True) w

theorem Comes.imp {Q : Items → Prop} (h : Comes cfg fs b metaId root P w) (hPQ : ∀ b, P b → Q b) :
    Comes cfg fs b metaId root Q w where
  settled := h.settled
  session := h.session
  store := by
    rcases h.store with ⟨V, hl, hp⟩ | ⟨hm, V, x, hf, hp⟩
    . exact .inl ⟨V, hl, hPQ _ hp⟩
    . exact .inr ⟨hm, V, x, hf, fun b' top' hs => hPQ _ (hp b' top' hs)⟩

theorem Comes.mounted (h : Comes cfg fs b metaId root P w) (hm : w.ram.mounted = true) :
    ∃ V, Lies cfg fs w.base.items w.base.top w.ram.metaId w.ram.dirRoot V ∧ P w.base.items := by
  obtain ⟨rfl, rfl⟩ := h.session hm
  rcases h.store with hl | ⟨hno, -⟩
  . exact hl
  . rw [hm] at hno
    cases hno

/-! Calls without a session -/

-- No file system is mounted.
def Shut (s : FsWorld) : Prop := s.ram.mounted = false ∧ s.ram.intentPending = false

theorem shut_walk (path : Option CStr) : ∃ e, Says Shut (walk (storeBacking cfg) fs path) (.error e) := by
  cases path with
  | none => exact ⟨_, Says.fail _⟩
  | some path =>
    refine ⟨Errno.ENODEV, ?_⟩
    rintro ⟨s, st⟩ ⟨hm, -⟩
    exact walk_unmounted hm path

theorem shut_settle : Says Shut (intentSettle (storeBacking cfg) fs) (.ok ()) := by
  rintro ⟨s, st⟩ ⟨-, hq⟩
  have hsession : (session : F MapStore Session) ⟨s, st⟩ = (.ok st, ⟨s, st⟩) := rfl
  have hq : st.intentPending = false := hq
  rw [intentSettle, Proc.bind_ok hsession, if_pos hq]
  rfl

theorem says_shut (op : FsOp) (hop : op ≠ .mount ∧ op ≠ .unmount) : ∃ e, Says Shut (op.run cfg fs) (.error e) := by
  have hresolve : ∀ path, ∃ e, Says Shut (resolve (storeBacking cfg) fs path) (.error e) := by
    intro path
    obtain ⟨e, he⟩ := @shut_walk cfg fs path
    exact ⟨e, he.bind_error⟩
  have hlookup : ∀ path, ∃ e, Says Shut (blobfsLookup (storeBacking cfg) fs path) (.error e) := by
    intro path
    obtain ⟨e, he⟩ := hresolve path
    exact ⟨e, he.bind_error⟩
  cases op with
  | mount => exact absurd rfl hop.1
  | unmount => exact absurd rfl hop.2
  | create path =>
    obtain ⟨e, he⟩ := @shut_walk cfg fs path
    exact ⟨e, he.bind_error.bind_error.bind_error⟩
  | mkdir path =>
    obtain ⟨e, he⟩ := @shut_walk cfg fs path
    exact ⟨e, he.bind_error.bind_error.bind_error⟩
  | unlink path =>
    obtain ⟨e, he⟩ := hresolve path
    exact ⟨e, (shut_settle.bind he.bind_error).bind_error⟩
  | rename src dst =>
    obtain ⟨e, he⟩ := hresolve src
    exact ⟨e, (shut_settle.bind he.bind_error).bind_error⟩
  | stat path =>
    obtain ⟨e, he⟩ := hresolve path
    exact ⟨e, he.bind_error.bind_error⟩
  | read path off len =>
    obtain ⟨e, he⟩ := hlookup path
    exact ⟨e, he.bind_error.bind_error⟩
  | write path off buf =>
    obtain ⟨e, he⟩ := hlookup path
    exact ⟨e, he.bind_error.bind_error⟩
  | truncate path size =>
    obtain ⟨e, he⟩ := hlookup path
    exact ⟨e, he.bind_error.bind_error⟩

/-! Calls of a session -/

theorem On.comes {s : FsWorld} (v1 : Bool) (hs : On b' top 0 True { st with metaV1 := v1 } s)
    (hq : st.intentPending = false) (h : Lies cfg fs b' top st.metaId st.dirRoot V) (hp : P b') :
    Comes cfg fs b st.metaId st.dirRoot P s where
  settled := by
    rw [hs.2]
    exact hq
  session := fun _ => by
    rw [hs.2]
    exact ⟨rfl, rfl⟩
  store := by
    rw [hs.1.items, hs.1.top]
    exact .inl ⟨V, h, hp⟩

theorem Lies.comes {s : MapStore} (h : Lies cfg fs s.items s.top metaId root V) (hp : P s.items) :
    Comes cfg fs b metaId root P ⟨s, Session.boot⟩ :=
  ⟨rfl, nofun, .inl ⟨V, h, hp⟩⟩

theorem Settled.kept {x : Move} {src dst : Option CStr} (hsrc : given src = [x.old]) (hdst : given dst = [x.new])
    (h : Settled cfg fs b root metaId V x b' top) : Kept root b (.rename src dst) True b' := by
  obtain ⟨V', -, -, hw, hbody, hone⟩ := h
  constructor
  . rw [FsOp.names, hsrc, hdst]
    exact hw
  . intro src' dst' he _
    cases he
    exact ⟨x.old, x.new, _, hsrc, hdst, hbody, hone⟩

-- What every call of the session `st` leaves.
def leaves (cfg : RegCfg) (fs : FsCfg) (st : Session) (b : Items) (op : FsOp) : Post FsWorld Errno FsReply where
  ok _ := Comes cfg fs b st.metaId st.dirRoot (Kept st.dirRoot b op False)
  err _ := Comes cfg fs b st.metaId st.dirRoot (Kept st.dirRoot b op False)
  cut s := Comes cfg fs b st.metaId st.dirRoot (Kept st.dirRoot b op True) ⟨s.base, Session.boot⟩

theorem Rests.comes {s : FsWorld} (op : FsOp) (hq : st.intentPending = false)
    (h : Rests cfg fs st b op.names V s) : Comes cfg fs b st.metaId st.dirRoot (Kept st.dirRoot b op False) s := by
  obtain ⟨b', top, v1, hlies, hw, hs⟩ := h
  exact On.comes v1 hs hq hlies ⟨hw, fun _ _ _ hf => hf.elim⟩

theorem answering_leaves {op : FsOp} {r : Except Errno (Files × FsReply)} {I : FsWorld → Prop}
    {x : F MapStore FsReply}
    (hq : st.intentPending = false) (hop : ∀ src dst, op ≠ .rename src dst)
    (hx : Spec H I x (answering cfg fs st V b op.names r)) : Spec H I x (leaves cfg fs st b op) := by
  refine hx.conseq (fun _ hs => hs) ?_ ?_ ?_
  . rintro rep s ⟨V', -, hrest⟩
    exact hrest.comes _ hq
  . rintro e s ⟨-, hrest⟩
    exact hrest.comes _ hq
  . rintro s ⟨V', -, hlies, hw⟩
    exact hlies.comes ⟨hw, fun src dst he _ => absurd he (hop src dst)⟩

-- What one call does to a mounted file system.
theorem call_leaves (h : Lies cfg fs b top st.metaId st.dirRoot V) (hm : st.mounted = true)
    (hq : st.intentPending = false) (op : FsOp) :
    Spec H (On b top 0 True st) (op.run cfg fs) (leaves cfg fs st b op) := by
  have hstill : Kept st.dirRoot b op False b := ⟨Within.refl _ _ _, fun _ _ _ hf => hf.elim⟩
  cases op with
  | mount =>
    unfold FsOp.run blobfsMount
    rw [Proc.bind_assoc]
    apply says_session.rule_ok
    rw [if_pos hm]
    exact fun s hs _ => On.comes st.metaV1 hs hq h hstill
  | unmount =>
    unfold FsOp.run blobfsUnmount
    apply setSession_rule
    apply Spec.ret
    rintro ⟨s, st'⟩ ⟨hs, rfl⟩
    obtain rfl := hs.items
    obtain rfl := hs.top
    exact h.comes hstill
  | create path => exact answering_leaves hq nofun (create_answers h path)
  | mkdir path => exact answering_leaves hq nofun (mkdir_answers h path)
  | unlink path => exact answering_leaves hq nofun (unlink_answers h hq path)
  | stat path => exact answering_leaves hq nofun (stat_answers h path)
  | read path off len => exact answering_leaves hq nofun (read_answers h path off len)
  | write path off buf => exact answering_leaves hq nofun (write_answers h path off buf)
  | truncate path size => exact answering_leaves hq nofun (truncate_answers h path size)
  | rename src dst =>
    refine (rename_answers h hq src dst).conseq (fun _ hs => hs) ?_ ?_ ?_
    . rintro rep s ⟨V', -, hrest⟩
      exact Rests.comes (.rename src dst) hq hrest
    . rintro e s ⟨-, hrest⟩
      exact Rests.comes (.rename src dst) hq hrest
    . rintro s ⟨x, hsrc, hdst, hf | hs⟩
      . exact ⟨rfl, nofun, .inr ⟨rfl, V, x, hf, fun b' top' hs => hs.kept hsrc hdst⟩⟩
      . have hkept := hs.kept hsrc hdst
        obtain ⟨V', -, hlies, -⟩ := hs
        exact hlies.comes hkept

theorem start_on {c : FsCall} (hc : c.Powered) : On w.base.items w.base.top 0 True w.ram (fsStart w c) :=
  ⟨⟨rfl, rfl, rfl, hc, .inr trivial⟩, rfl⟩

theorem call_comes {c : FsCall} (hc : c.Powered) (hm : w.ram.mounted = true) (hq : w.ram.intentPending = false)
    (h : Lies cfg fs w.base.items w.base.top w.ram.metaId w.ram.dirRoot V) :
    Comes cfg fs w.base.items w.ram.metaId w.ram.dirRoot
      (Kept w.ram.dirRoot w.base.items c.op ((callFs cfg fs w c).1 = .cut)) (callFs cfg fs w c).2 := by
  have hpost := call_leaves (H := ⟨fun _ => True, fun _ h => h⟩) h hm hq c.op (fsStart w c) (start_on hc) trivial
  unfold callFs
  generalize c.op.run cfg fs (fsStart w c) = r at hpost
  obtain ⟨o, s⟩ := r
  cases o with
  | ok rep => exact hpost.imp fun b hk => ⟨hk.1, fun _ _ _ hcut => nomatch hcut⟩
  | err e => exact hpost.imp fun b hk => ⟨hk.1, fun _ _ _ hcut => nomatch hcut⟩
  | cut => exact hpost.imp fun b hk => ⟨hk.1, fun src dst he _ => hk.2 src dst he trivial⟩

/-! Calls without a file system -/

theorem Comes.congr {w' : FsWorld} (h : Comes cfg fs b metaId root P w) (hb : w'.base.items = w.base.items)
    (ht : w'.base.top = w.base.top) (hr : w'.ram = w.ram) : Comes cfg fs b metaId root P w' where
  settled := hr ▸ h.settled
  session := hr ▸ h.session
  store := by
    rw [hb, ht, hr]
    exact h.store

theorem Comes.shut {s : MapStore} (h : Comes cfg fs b metaId root P w)
    (hb : s.items = w.base.items) (ht : s.top = w.base.top) : Comes cfg fs b metaId root P ⟨s, Session.boot⟩ where
  settled := rfl
  session := nofun
  store := by
    rw [hb, ht]
    exact h.store.imp_right fun hf => ⟨rfl, hf.2⟩

-- Without a session a call is refused, and nothing changes.
theorem shut_call {c : FsCall} (hm : w.ram.mounted = false) (hq : w.ram.intentPending = false)
    (hc : c.op ≠ .mount) :
    (callFs cfg fs w c).2.base.items = w.base.items ∧ (callFs cfg fs w c).2.base.top = w.base.top ∧
      ((callFs cfg fs w c).2.ram = w.ram ∨ (callFs cfg fs w c).2.ram = Session.boot) := by
  by_cases hu : c.op = .unmount
  . unfold callFs
    rw [hu]
    exact ⟨rfl, rfl, .inr rfl⟩
  . obtain ⟨e, he⟩ := @says_shut cfg fs c.op ⟨hc, hu⟩
    unfold callFs
    rw [he (fsStart w c) ⟨hm, hq⟩]
    exact ⟨rfl, rfl, .inl rfl⟩

theorem run_mount {I : FsWorld → Prop} {Q : Post FsWorld Errno Unit}
    (h : Spec H I (blobfsMount (storeBacking cfg) fs) Q) :
    Spec H I (FsOp.mount.run cfg fs) ⟨fun _ => Q.ok (), Q.err, Q.cut⟩ :=
  h.bind (fun _ => Spec.ret fun _ hs => hs) (fun _ _ hs => hs) fun _ hs => hs

-- A mount finds the file system, and goes on with what was under way.
theorem mount_comes {c : FsCall} (hc : c.Powered) (hop : c.op = .mount) (h : Comes cfg fs b metaId root P w) :
    Comes cfg fs b metaId root P (callFs cfg fs w c).2 := by
  have hon := start_on (w := w) hc
  cases hm : w.ram.mounted with
  | true =>
    have hrefused : (c.op.run cfg fs (fsStart w c)) = (.err Errno.EALREADY, fsStart w c) := by
      have hsession : (session : F MapStore Session) (fsStart w c) = (.ok w.ram, fsStart w c) := rfl
      rw [hop, FsOp.run, blobfsMount, Proc.bind_assoc, Proc.bind_ok hsession, if_pos hm]
      rfl
    unfold callFs
    rw [hrefused]
    exact h.congr rfl rfl rfl
  | false =>
    unfold callFs
    rw [hop]
    rcases h.store with ⟨V, hlies, hp⟩ | ⟨-, V, x, hf, hp⟩
    . have hpost := run_mount (mount_lies (H := ⟨fun _ => True, fun _ h => h⟩) hm hlies) _ hon trivial
      generalize FsOp.mount.run cfg fs (fsStart w c) = r at hpost
      obtain ⟨o, s⟩ := r
      cases o with
      | ok rep =>
        obtain ⟨v1, hs⟩ := hpost
        refine ⟨by rw [hs.2]; rfl, fun _ => by rw [hs.2]; exact ⟨rfl, rfl⟩, .inl ⟨V, ?_⟩⟩
        rw [hs.1.items, hs.1.top]
        exact ⟨hlies, hp⟩
      | err e => exact hpost.elim
      | cut => exact hpost.elim
    . have hpost := run_mount (mount_flight (H := ⟨fun _ => True, fun _ h => h⟩) hm hf) _ hon trivial
      generalize FsOp.mount.run cfg fs (fsStart w c) = r at hpost
      obtain ⟨o, s⟩ := r
      cases o with
      | ok rep =>
        obtain ⟨b', hsettled, hs⟩ := hpost
        have hp' := hp _ _ hsettled
        obtain ⟨V', -, hlies, -⟩ := hsettled
        refine ⟨by rw [hs.2]; rfl, fun _ => by rw [hs.2]; exact ⟨rfl, rfl⟩, .inl ⟨V', ?_⟩⟩
        rw [hs.1.items, hs.1.top]
        exact ⟨hlies, hp'⟩
      | err e => exact hpost.elim
      | cut =>
        rcases hpost with hf' | hsettled
        . exact ⟨rfl, nofun, .inr ⟨rfl, V, x, hf', hp⟩⟩
        . have hp' := hp _ _ hsettled
          obtain ⟨V', -, hlies, -⟩ := hsettled
          exact hlies.comes hp'

theorem runMounts_comes {ms : List FsCall} (hms : ∀ m ∈ ms, m.Powered ∧ m.op = .mount)
    (h : Comes cfg fs b metaId root P w) : Comes cfg fs b metaId root P (runFs cfg fs w ms) := by
  induction ms generalizing w with
  | nil => exact h
  | cons m ms ih =>
    obtain ⟨hm, hop⟩ := hms m List.mem_cons_self
    exact ih (fun n hn => hms n (List.mem_cons_of_mem _ hn)) (mount_comes hm hop h)

/-! Runs -/

theorem virgin_call {c : FsCall} (hc : c.Powered) (hm : w.ram.mounted = false) (hq : w.ram.intentPending = false)
    (h : Virgin cfg w.base.items w.base.top) : Valid cfg fs (callFs cfg fs w c).2 := by
  by_cases hop : c.op = .mount
  rotate_left
  . obtain ⟨hb, ht, hr⟩ := @shut_call cfg fs w c hm hq hop
    refine .inl ⟨?_, ?_, by rwa [hb, ht]⟩
    . rcases hr with hr | hr <;> rw [hr]
      . exact hm
      . rfl
    . rcases hr with hr | hr <;> rw [hr]
      . exact hq
      . rfl
  have hmount : Spec ⟨fun _ => True, fun _ h => h⟩ (On w.base.items w.base.top 0 True w.ram)
      (blobfsMount (storeBacking cfg) fs) (founds cfg fs w.ram) := mount_founds hm h
  have hpost := run_mount hmount _ (start_on hc) trivial
  unfold callFs
  rw [hop]
  generalize FsOp.mount.run cfg fs (fsStart w c) = r at hpost
  obtain ⟨o, s⟩ := r
  cases o with
  | ok rep =>
    obtain ⟨b, top, metaId, root, hlies, hs⟩ := hpost
    refine .inr ⟨b, metaId, root, by rw [hs.2]; rfl, fun _ => by rw [hs.2]; exact ⟨rfl, rfl⟩, .inl ⟨bare, ?_⟩⟩
    rw [hs.1.items, hs.1.top]
    exact ⟨hlies, trivial⟩
  | err e =>
    obtain ⟨b, top, hvirgin, hs⟩ := hpost
    refine .inl ⟨by rw [hs.2]; exact hm, by rw [hs.2]; exact hq, ?_⟩
    rw [hs.1.items, hs.1.top]
    exact hvirgin
  | cut =>
    rcases hpost with hvirgin | ⟨metaId, root, hlies⟩
    . exact .inl ⟨rfl, rfl, hvirgin⟩
    . exact .inr ⟨s.base.items, metaId, root, hlies.comes trivial⟩

-- One call of a run.
theorem call_valid {c : FsCall} (hc : c.Powered) (h : Valid cfg fs w) : Valid cfg fs (callFs cfg fs w c).2 := by
  rcases h with ⟨hm, hq, hvirgin⟩ | ⟨b, metaId, root, h⟩
  . exact virgin_call hc hm hq hvirgin
  cases hm : w.ram.mounted with
  | true =>
    obtain ⟨V, hlies, -⟩ := h.mounted hm
    exact .inr ⟨_, _, _, (call_comes hc hm h.settled hlies).imp fun _ _ => trivial⟩
  | false =>
    refine .inr ⟨b, metaId, root, ?_⟩
    by_cases hop : c.op = .mount
    . exact mount_comes hc hop h
    . obtain ⟨hb, ht, hr⟩ := @shut_call cfg fs w c hm h.settled hop
      rcases hr with hr | hr
      . exact h.congr hb ht hr
      . generalize (callFs cfg fs w c).2 = w' at hb ht hr
        obtain ⟨s, st⟩ := w'
        cases hr
        exact h.shut hb ht

theorem runFs_valid {cs : List FsCall} (hcs : ∀ c ∈ cs, c.Powered) (h : Valid cfg fs w) :
    Valid cfg fs (runFs cfg fs w cs) := by
  induction cs generalizing w with
  | nil => exact h
  | cons c cs ih =>
    exact ih (fun d hd => hcs d (List.mem_cons_of_mem _ hd)) (call_valid (hcs c List.mem_cons_self) h)

theorem Valid.mounted (h : Valid cfg fs w) (hm : w.ram.mounted = true) :
    w.ram.intentPending = false ∧ ∃ V, Lies cfg fs w.base.items w.base.top w.ram.metaId w.ram.dirRoot V := by
  rcases h with ⟨hno, -⟩ | ⟨b, metaId, root, h⟩
  . rw [hm] at hno
    cases hno
  . obtain ⟨V, hlies, -⟩ := h.mounted hm
    exact ⟨h.settled, V, hlies⟩

-- What the first call finds: no file system yet, or one with a meta of either version, where a rename may be
-- under way.
def Found (cfg : RegCfg) (fs : FsCfg) (b : Items) (top : Nat) : Prop :=
  Virgin cfg b top ∨ (∃ metaId root V, Lies cfg fs b top metaId root V) ∨
    ∃ b0 root metaId V x, Flight cfg fs b0 root metaId V x b top

theorem Found.valid (h : Found cfg fs w.base.items w.base.top) (hw : w.ram = Session.boot) : Valid cfg fs w := by
  obtain ⟨s, st⟩ := w
  cases hw
  rcases h with h | ⟨metaId, root, V, h⟩ | ⟨b0, root, metaId, V, x, h⟩
  . exact .inl ⟨rfl, rfl, h⟩
  . exact .inr ⟨s.items, metaId, root, h.comes trivial⟩
  . exact .inr ⟨b0, metaId, root, rfl, nofun, .inr ⟨rfl, V, x, h, fun _ _ _ => trivial⟩⟩

/-- Whenever a file system is mounted, after any calls with power lost at any writes, its tree is sound. What a
call has changed by then, or by the mount after power was lost in it and in mounts since, are paths
through the names that it was given, and of a rename one of the names is there. -/
theorem tree_kept (hw : w.ram = Session.boot) (hfound : Found cfg fs w.base.items w.base.top) (cs : List FsCall)
    (hcs : ∀ c ∈ cs, c.Powered) (hm : (runFs cfg fs w cs).ram.mounted = true) :
    TreeSound (runFs cfg fs w cs).base.items (runFs cfg fs w cs).ram.dirRoot ∧
      ∀ (c : FsCall) (ms : List FsCall), c.Powered → (∀ m ∈ ms, m.Powered ∧ m.op = .mount) →
        let r := callFs cfg fs (runFs cfg fs w cs) c
        let w' := runFs cfg fs r.2 ms
        w'.ram.mounted = true → w'.ram.dirRoot = (runFs cfg fs w cs).ram.dirRoot ∧
          Within c.op.names w'.ram.dirRoot (runFs cfg fs w cs).base.items w'.base.items ∧
          ∀ src dst, c.op = .rename src dst → r.1 = .cut →
            OneName w'.ram.dirRoot (runFs cfg fs w cs).base.items w'.base.items src dst := by
  obtain ⟨hq, V, hlies⟩ := (runFs_valid hcs (hfound.valid hw)).mounted hm
  refine ⟨hlies.tree, ?_⟩
  intro c ms hc hms r w' hm'
  have hcomes := runMounts_comes hms (call_comes hc hm hq hlies)
  obtain ⟨V', -, hkept⟩ := hcomes.mounted hm'
  have hroot : w'.ram.dirRoot = (runFs cfg fs w cs).ram.dirRoot := (hcomes.session hm').2
  refine ⟨hroot, ?_⟩
  rw [hroot]
  exact hkept

end

-- A store with a registry and nothing else.
def newStore : FsWorld :=
  ⟨⟨fun id => if id = blobDbRootId then some (.blob (rrImage [])) else none, 1, [], [], [], []⟩, Session.boot⟩

theorem newStore_found {cfg : RegCfg} {fs : FsCfg} : Found cfg fs newStore.base.items newStore.base.top := by
  refine .inl ⟨⟨?_, rfl, by decide⟩, rrImage [], [], rfl, rrCheck_image cfg (Nat.zero_le _), nofun⟩
  intro id hid
  have hid : 1 < id := hid
  exact if_neg (by simp only [blobDbRootId]; omega)

def fileA : Option CStr := some ⟨[47, 100, 47, 97], by decide⟩

def fileB : Option CStr := some ⟨[47, 100, 47, 98], by decide⟩

-- A directory `/d` with a file `/d/a`.
def makeFile : List FsCall :=
  [⟨.mount, [], []⟩, ⟨.mkdir (some ⟨[47, 100], by decide⟩), [], []⟩, ⟨.create fileA, [], []⟩]

-- Power is lost when the file has both names, and again in the mount that goes on from there.
def cutRename : FsCall := ⟨.rename fileA fileB, [.done, .done, .cut false], []⟩

def cutMounts : List FsCall := [⟨.mount, [.cut true], []⟩, ⟨.mount, [], []⟩]

theorem tree_kept_rename :
    OneName 3 (runFs smallKvdb.reg twelve newStore makeFile).base.items
      (runFs smallKvdb.reg twelve (callFs smallKvdb.reg twelve (runFs smallKvdb.reg twelve newStore makeFile)
        cutRename).2 cutMounts).base.items fileA fileB := by
  have hpowered : ∀ c ∈ cutRename :: (makeFile ++ cutMounts), c.Powered := by
    intro c hc f hf
    simp only [cutRename, makeFile, cutMounts, List.cons_append, List.nil_append, List.mem_cons, List.not_mem_nil,
      or_false] at hc
    rcases hc with rfl | rfl | rfl | rfl | rfl | rfl
    all_goals simp only [List.mem_cons, List.not_mem_nil, or_false] at hf
    . rcases hf with rfl | rfl | rfl <;> trivial
    . subst hf
      trivial
  have hmount : ∀ m ∈ cutMounts, m.op = .mount := by
    intro m hm
    simp only [cutMounts, List.mem_cons, List.not_mem_nil, or_false] at hm
    rcases hm with rfl | rfl <;> rfl
  have hmade : (runFs smallKvdb.reg twelve newStore makeFile).ram.mounted = true := by decide +kernel
  have hagain : (runFs smallKvdb.reg twelve (callFs smallKvdb.reg twelve
      (runFs smallKvdb.reg twelve newStore makeFile) cutRename).2 cutMounts).ram.mounted = true := by decide +kernel
  have hcut : (callFs smallKvdb.reg twelve (runFs smallKvdb.reg twelve newStore makeFile) cutRename).1 = .cut := by
    decide +kernel
  have hkept := (tree_kept rfl newStore_found makeFile (fun c hc => hpowered c (by simp [hc])) hmade).2
    cutRename cutMounts (hpowered _ (by simp)) (fun m hm => ⟨hpowered m (by simp [hm]), hmount m hm⟩) hagain
  exact hkept.2.2 fileA fileB rfl hcut

end KeyValueDb.Blobfs
