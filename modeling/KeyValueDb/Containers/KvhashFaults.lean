import KeyValueDb.Containers.KvhashUndo

/-!
A set during which one call of the store fails, in any state a map can get into: what it leaves in the
store if the failed call has left its blob unchanged, and what the map says if it has not.
-/

namespace KeyValueDb.Containers

-- Which call of the store fails during a set: the read or the write of a number, or the first
-- allocation after some that skip ids.
inductive SetFault where
  | read (n : Nat) (e : Errno)
  | alloc
  | write (n : Nat) (e : Errno)
  deriving Repr, DecidableEq

def SetFault.turns (f : SetFault) (landed : Bool) : List Turn :=
  match f with
  | .write n e => List.replicate n .done ++ [.error e landed]
  | _ => []

def SetFault.call (f : SetFault) (landed : Bool) (gaps : List Nat) (op : KvOp) : KvCall :=
  match f with
  | .read n e => ⟨op, [], gaps.map some, List.replicate n none ++ [some e]⟩
  | .alloc => ⟨op, [], gaps.map some ++ [none], []⟩
  | .write n e => ⟨op, List.replicate n .done ++ [.error e landed], gaps.map some, []⟩

-- The deletes succeed, and nothing that failed answers that something is not there.
def KvResult.Releases (r : KvResult) : Prop :=
  ∀ ev ∈ r.events, ev.Telling ∧ ∀ e, ev = .edit e → e.data = none → e.turn = .done

-- Whether an event is a delete that did not succeed.
def Event.undeleted : Event → Bool
  | .edit ⟨_, none, .done, _⟩ => false
  | .edit ⟨_, none, _, _⟩ => true
  | _ => false

theorem Event.undeleted_iff (ev : Event) :
    ev.undeleted = false ↔ ∀ e, ev = .edit e → e.data = none → e.turn = .done := by
  rcases ev with ⟨id, _ | data, _ | _ | _, before⟩ | _
  all_goals simp [Event.undeleted]

instance (r : KvResult) : Decidable r.Releases :=
  decidable_of_iff (∀ ev ∈ r.events, ev.Telling ∧ ev.undeleted = false)
    (by simp only [KvResult.Releases, Event.undeleted_iff])

variable {cfg : KvCfg} {g : Shape} {tbl : Table} {b : Blobs} {top root : Nat} {lim : Nat × Nat}
  {dir bkt key val : List UInt8} {ts : List Turn} {f : SetFault} {landed : Bool} {gaps : List Nat}
  {w : World KvRam} {mc : Option MapConfig}

namespace SetFault

theorem call_op (op : KvOp) : (f.call landed gaps op).op = op := by
  cases f <;> rfl

theorem call_turns (op : KvOp) : (f.call landed gaps op).turns = f.turns landed := by
  cases f <;> rfl

-- The only turn that is not done is the failing one.
theorem met {k : Nat} {e : Errno} {l : Bool} (h : ((f.turns landed).drop k).headD .done = .error e l) :
    f = .write k e ∧ l = landed := by
  cases f with
  | read n e' => simp [turns] at h
  | alloc => simp [turns] at h
  | write n e' =>
    simp only [turns, List.headD_eq_head?_getD, List.head?_drop] at h
    rcases Nat.lt_trichotomy k n with hk | rfl | hk
    . rw [List.getElem?_append_left (by simpa using hk)] at h
      simp [hk] at h
    . simp at h
      obtain ⟨rfl, rfl⟩ := h
      exact ⟨rfl, rfl⟩
    . rw [List.getElem?_eq_none (by simp; omega)] at h
      cases h

-- It is not used up by writes that succeed.
theorem not_undone {k n : Nat} {e : Errno} (hk : k ≤ n) :
    ¬ Undone (((write n e).turns landed).drop k) [] := by
  rintro ⟨d, hd, hdone⟩
  have hlen : (((write n e).turns landed).drop k).length ≤ d := List.drop_eq_nil_iff.mp hd.symm
  have hmem : Turn.error e landed ∈ (((write n e).turns landed).drop k).take d := by
    rw [List.take_of_length_le hlen, turns, List.drop_append_of_le_length (by simpa using hk)]
    simp
  cases hdone _ hmem

end SetFault

/-! What every run keeps -/

theorem kvStep_calls {I : World KvRam → Prop} (hI : Calls cfg.toStoreCfg I)
    (henter : ∀ w c, I w → I (w.enterKv c)) (c : KvCall) (h : I w) : I (kvStep cfg root w c).2 := by
  have hrun := KvOp.run_client cfg root c.op I hI _ (henter w c h)
  rw [kvStep]
  generalize c.op.run cfg root (w.enterKv c) = r at hrun
  obtain ⟨o, s⟩ := r
  cases o with
  | ok a => exact hrun
  | err e => exact hrun
  | cut => exact hI.ram s _ hrun

theorem runKv_calls {I : World KvRam → Prop} (hI : Calls cfg.toStoreCfg I)
    (henter : ∀ w c, I w → I (w.enterKv c)) (cs : List KvCall) (h : I w) :
    I (runKv cfg root w cs).2 := by
  induction cs generalizing w with
  | nil => exact h
  | cons c cs ih => exact ih (kvStep_calls hI henter c h)

-- A store in order: its payloads have room, and no blob is bound whose id was not handed out.
structure World.Orderly (cfg : StoreCfg) (w : World KvRam) : Prop where
  fit : w.Fit cfg
  tidy : w.Tidy

theorem orderly_calls (cfg : StoreCfg) : Calls cfg (World.Orderly cfg) := by
  have hfit := fit_calls (ρ := KvRam) cfg
  refine ⟨⟨⟨fun w h => ⟨hfit.done w h.fit, h.tidy⟩,
    fun w id e he h => ⟨hfit.failed w id e he h.fit, h.tidy⟩,
    fun w r h => ⟨hfit.ram w r h.fit, h.tidy⟩⟩, ?_⟩, ?_, ?_⟩
  . exact fun id w h => ⟨hfit.delete id w h.fit, (Tidies.blobDbDelete id w h.tidy).1⟩
  . exact fun id payload w h =>
      ⟨hfit.update id payload w h.fit, (Tidies.blobDbUpdate cfg id payload w h.tidy).1⟩
  . exact fun w h => ⟨hfit.alloc w h.fit, (Tidies.blobDbAllocId w h.tidy).1⟩

theorem lifeOfMap_orderly (h : w.Orderly cfg.toStoreCfg) (cs : List KvCall) :
    (lifeOfMap cfg root mc w cs).2.Orderly cfg.toStoreCfg := by
  refine runKv_calls (orderly_calls _) (fun w c h => ⟨⟨h.fit.tallied, h.fit.object⟩, h.tidy⟩) cs ?_
  exact kvhashCreate_client mc _ (orderly_calls _) w h

/-! How the call ends -/

-- A map whose root is too long to be loaded is not written to.
theorem kvhashSet_oversized (h : Oversized cfg root b) {scfg : StoreCfg} :
    Spec releasing (Faces scfg b top lim dir bkt ts) (kvhashSet cfg root key val)
      (failing (fun _ _ => False) (Faces scfg b top lim [] [] ts)) := by
  refine Spec.ite (fun _ => Spec.fail fun s hs => hs.idle) fun _ =>
    Spec.ite (fun _ => Spec.fail fun s hs => hs.idle) fun _ => ?_
  have hkeep := ((@resolveLeaf_views cfg root) (cfg.hash key) _
    (unturned_reads scfg ts)).spec releasing
  have hload : Spec releasing (Sees b top lim dir bkt)
      (resolveLeaf cfg root (cfg.hash key) >>= fun l => pure l) (refusedPost Leaf b top lim Errno.Telling) :=
    refused_resolveLeaf releasing_telling h _ _
  refine Spec.pre (hload.of_map.both hkeep |>.bind (fun _ _ hf => hf.1.elim) ?_ fun _ _ => trivial)
    fun s hs => ⟨hs.toSees, hs.turns, hs.unlanded, hs.fit⟩
  rintro e s ⟨⟨_, hs⟩, ht, hun, hfit⟩
  exact ⟨hs, ht, hun, hfit⟩

theorem kvhashSetPlan_oversized (h : Oversized cfg root w.blobs) (plan : SetPlan) :
    lookAt (kvhashSetPlan cfg root key val) w ≠ .ok plan := by
  have hpost := ((kvhashSetPlan_views root key val).silent.holds
    (refused_resolveLeaf (fun _ hw => hw) h (cfg.hash key) _)).1
  rw [lookAt]
  intro he
  generalize kvhashSetPlan cfg root key val w.still = r at hpost he
  obtain ⟨o, s⟩ := r
  subst he
  exact hpost

-- The world that a set with an error leaves.
theorem set_stops (h : MapMade cfg root mc w) (hw : w.Orderly cfg.toStoreCfg) (cs : List KvCall)
    (hp : ∀ r ∈ (lifeOfMap cfg root mc w cs).1, r.Plain) {e : Errno}
    (hreply : (kvStep cfg root (lifeOfMap cfg root mc w cs).2
      (f.call landed gaps (.set key val))).1.reply = .err e)
    (hrel : (kvStep cfg root (lifeOfMap cfg root mc w cs).2
      (f.call landed gaps (.set key val))).1.Releases) :
    (∃ geo tbl plan, lookAt (kvhashSetPlan cfg root key val) (lifeOfMap cfg root mc w cs).2 = .ok plan ∧
        Stored cfg (Geometry.shape geo root) tbl (lifeOfMap cfg root mc w cs).2.blobs
          (lifeOfMap cfg root mc w cs).2.top ∧
        ∃ lim, SetFailed cfg (Geometry.shape geo root) tbl (lifeOfMap cfg root mc w cs).2.blobs
          (lifeOfMap cfg root mc w cs).2.top lim
          (Function.update (tbl.map cfg (Geometry.shape geo root)) key (some val))
          ((Geometry.shape geo root).place cfg key) plan (f.turns landed)
          (kvStep cfg root (lifeOfMap cfg root mc w cs).2 (f.call landed gaps (.set key val))).2) ∨
      (∀ plan, lookAt (kvhashSetPlan cfg root key val) (lifeOfMap cfg root mc w cs).2 ≠ .ok plan) ∧
        ∃ top lim, Faces cfg.toStoreCfg (lifeOfMap cfg root mc w cs).2.blobs top lim [] []
          (f.turns landed)
          (kvStep cfg root (lifeOfMap cfg root mc w cs).2 (f.call landed gaps (.set key val))).2 := by
  obtain ⟨geo, _, m, _, hkeeps⟩ := lifeOfMap_keeps h cs hp
  have hord := (@lifeOfMap_orderly _ root _ mc) hw cs
  generalize (lifeOfMap cfg root mc w cs).2 = w1 at hreply hrel hkeeps hord ⊢
  have hstart : Faces cfg.toStoreCfg w1.blobs w1.top (w1.ram.keyInlineMax, w1.ram.valInlineMax) [] []
      (f.turns landed) (w1.enterKv (f.call landed gaps (.set key val))) := by
    exact ⟨⟨rfl, rfl, rfl, List.nil_prefix, List.nil_prefix⟩, SetFault.call_turns _, nofun,
      ⟨hord.fit.tallied, hord.fit.object⟩⟩
  have hrun : ∀ {E : World KvRam → Prop} {ok : Unit → World KvRam → Prop},
      Spec releasing (Faces cfg.toStoreCfg w1.blobs w1.top (w1.ram.keyInlineMax, w1.ram.valInlineMax) []
        [] (f.turns landed)) (kvhashSet cfg root key val) (failing ok E) →
      E (kvStep cfg root w1 (f.call landed gaps (.set key val))).2 := by
    intro E ok hspec
    have hpost := hspec _ hstart
    simp only [kvStep, SetFault.call_op] at hreply hrel ⊢
    have hset : (KvOp.set key val).run cfg root (w1.enterKv (f.call landed gaps (.set key val))) =
        Proc.step (kvhashSet cfg root key val (w1.enterKv (f.call landed gaps (.set key val))))
          fun _ s => (.ok .done, s) := rfl
    rw [hset] at hreply hrel ⊢
    generalize kvhashSet cfg root key val (w1.enterKv (f.call landed gaps (.set key val))) = r
      at hpost hreply hrel
    obtain ⟨o, s⟩ := r
    cases o with
    | ok a => cases hreply
    | err e' => exact hpost hrel
    | cut => cases hreply
  rcases hkeeps with ⟨tbl, hstored, rfl⟩ | ⟨hover, rfl⟩
  . obtain ⟨plan, hplan, rfl⟩ := (kvhashSetPlan_views root key val).silent.found
      (kvhashSetPlan_spec (fun _ hw => hw) hstored key val)
    refine .inl ⟨geo, tbl, _, hplan, hstored, (w1.ram.keyInlineMax, w1.ram.valInlineMax), ?_⟩
    exact hrun (kvhashSet_faces hstored hord.tidy key val)
  . refine .inr ⟨kvhashSetPlan_oversized hover, w1.top, (w1.ram.keyInlineMax, w1.ram.valInlineMax), ?_⟩
    exact hrun (kvhashSet_oversized hover)

theorem kvStep_err {c : KvCall} {e : Errno} (h : (kvStep cfg root w c).1.reply = .err e) :
    (kvStep cfg root w c).1.events = (kvStep cfg root w c).2.history := by
  rw [kvStep] at h ⊢
  generalize c.op.run cfg root (w.enterKv c) = r at h ⊢
  obtain ⟨o, s⟩ := r
  cases o with
  | ok a => cases h
  | err e => rfl
  | cut => cases h

/-! What is left in the store -/

-- A set that fails leaves the live blobs as they were, unless the write that fails is the one that
-- publishes a new bucket in its directory.
theorem kvhash_set_releases (h : MapMade cfg root mc w) (hw : w.Orderly cfg.toStoreCfg)
    (cs : List KvCall) (hp : ∀ r ∈ (lifeOfMap cfg root mc w cs).1, r.Plain) (key val : List UInt8)
    (f : SetFault) (gaps : List Nat) {e : Errno}
    (hreply : (kvStep cfg root (lifeOfMap cfg root mc w cs).2
      (f.call false gaps (.set key val))).1.reply = .err e)
    (hrel : (kvStep cfg root (lifeOfMap cfg root mc w cs).2
      (f.call false gaps (.set key val))).1.Releases)
    (hmet : (kvStep cfg root (lifeOfMap cfg root mc w cs).2
      (f.call false gaps (.set key val))).2.turns = []) :
    (∀ id, (kvStep cfg root (lifeOfMap cfg root mc w cs).2
          (f.call false gaps (.set key val))).2.blobs id ≠ none ↔
        (lifeOfMap cfg root mc w cs).2.blobs id ≠ none) ↔
      ¬ ∃ plan e', lookAt (kvhashSetPlan cfg root key val) (lifeOfMap cfg root mc w cs).2 = .ok plan ∧
        plan.bucket = 0 ∧ f = .write plan.commit e' := by
  have hord := (@lifeOfMap_orderly _ root _ mc) hw cs
  rcases set_stops h hw cs hp hreply hrel with ⟨geo, tbl, plan, hplan, _, lim, hfail⟩ | ⟨hno, _, _, hs⟩
  . generalize (kvStep cfg root (lifeOfMap cfg root mc w cs).2
      (f.call false gaps (.set key val))).2 = s at hfail hmet ⊢
    cases hfail with
    | @back k hk hb _ ht =>
      rw [hb]
      refine iff_of_true (fun id => Iff.rfl) ?_
      rintro ⟨plan', e', hplan', h0, rfl⟩
      obtain rfl : plan = plan' := by simpa [hplan] using hplan'
      rw [hmet] at ht
      exact SetFault.not_undone (by omega) ht
    | @unpublished e' id data h0 turn hid hb _ =>
      refine iff_of_false (fun hsame => ?_) (not_not.mpr ⟨plan, e', hplan, h0, (SetFault.met turn).1⟩)
      have hnew : s.blobs id ≠ none := by
        rw [hb, Function.update_self]
        exact nofun
      exact (hsame id).mp hnew (hord.tidy id hid)
    | early _ turn _ => cases (SetFault.met turn).2
    | whole _ turn _ => cases (SetFault.met turn).2
    | broken _ turn _ => cases (SetFault.met turn).2
  . refine iff_of_true (fun id => by rw [hs.blobs]) ?_
    rintro ⟨plan, _, hplan, _⟩
    exact hno plan hplan

theorem blankMap_orderly : blankMap.Orderly smallMap.toStoreCfg where
  fit := by
    refine ⟨⟨by decide, fun ids _ => ?_⟩, nofun⟩
    rw [show ids.map blankMap.blobs.size = ids.map fun _ => 0 from rfl]
    simp
  tidy _ _ := rfl

-- The new bucket is there, and its key and value are not in it.
theorem kvhash_set_releases_value :
    (∀ id, (kvStep smallMap 2 (lifeOfMap smallMap 2 none blankMap []).2
          (SetFault.call (.write 1 Errno.EIO) false [] (.set [2] [1, 2, 3, 4]))).2.blobs id ≠ none ↔
        (lifeOfMap smallMap 2 none blankMap []).2.blobs id ≠ none) ↔
      ¬ ∃ plan e', lookAt (kvhashSetPlan smallMap 2 [2] [1, 2, 3, 4])
          (lifeOfMap smallMap 2 none blankMap []).2 = .ok plan ∧
        plan.bucket = 0 ∧ SetFault.write 1 Errno.EIO = .write plan.commit e' :=
  kvhash_set_releases (blankMap_made (by decide +kernel)) blankMap_orderly [] (by decide +kernel) [2]
    [1, 2, 3, 4] (.write 1 Errno.EIO) [] (e := Errno.EIO) (by decide +kernel) (by decide +kernel)
    (by decide +kernel)

-- The first set of a bucket fails at the directory, and the bucket stays.
theorem failed_set_leaves_bucket :
    (kvStep smallMap 2 (lifeOfMap smallMap 2 none blankMap []).2
        (SetFault.call (.write 1 Errno.EIO) false [] (.set [2] [9]))).1.reply = .err Errno.EIO ∧
      (kvStep smallMap 2 (lifeOfMap smallMap 2 none blankMap []).2
        (SetFault.call (.write 1 Errno.EIO) false [] (.set [2] [9]))).1.Releases ∧
      (lifeOfMap smallMap 2 none blankMap []).2.blobs 3 = none ∧
      (kvStep smallMap 2 (lifeOfMap smallMap 2 none blankMap []).2
        (SetFault.call (.write 1 Errno.EIO) false [] (.set [2] [9]))).2.blobs 3 ≠ none := by
  decide +kernel

/-! What the map says -/

-- After a set of `key`, every entry names live blobs, no get answers -EIO, and each is told the old
-- value or, of `key`, the new one.
structure Dependable (cfg : KvCfg) (root : Nat) (key val : List UInt8) (w w' : World KvRam) : Prop where
  live : ∀ x ∈ mapEntries cfg w'.blobs root, EntryLive cfg w'.blobs x
  gets : ∀ k outSz, lookAt (kvhashGet cfg root k outSz) w' ≠ .err Errno.EIO
  told : ∀ k, kvSeen cfg root w' k = kvSeen cfg root w k ∨ k = key ∧ kvSeen cfg root w' k = some val

theorem Stored.dependable {tbl' : Table} {w' : World KvRam} (h : Stored cfg g tbl w.blobs w.top)
    (h' : Stored cfg g tbl' w'.blobs w'.top)
    (hmap : tbl'.map cfg g = tbl.map cfg g ∨
      tbl'.map cfg g = Function.update (tbl.map cfg g) key (some val)) :
    Dependable cfg g.root key val w w' where
  live := h'.entries_live
  gets k outSz := by
    rcases h'.told k outSz with ⟨v, _, hl⟩ | ⟨_, hl | ⟨_, hl⟩⟩
    all_goals
      rw [hl]
      exact nofun
  told k := by
    rw [h.seen, h'.seen]
    rcases hmap with hmap | hmap
    . exact .inl (by rw [hmap])
    . by_cases hk : k = key
      . refine .inr ⟨hk, ?_⟩
        rw [hmap, hk, Function.update_self]
      . exact .inl (by rw [hmap, Function.update_of_ne hk])

-- An entry whose blobs are not all there.
theorem Broken.dangling {c : Nat × Nat} {s : World KvRam} (h : Stored cfg g tbl b top)
    (hb : Broken cfg g tbl b top c s) :
    ∃ x ∈ mapEntries cfg s.blobs g.root, ¬ EntryLive cfg s.blobs x := by
  obtain ⟨bid, ps, top3, b3, q, hcommit, hq, ⟨id, hid, hpart, hnone⟩, hsame⟩ := hb
  have h3 := h.put hcommit
  have hin := hcommit.cell
  have hq' : q ∈ (tbl.put c bid ps).pairs c := by rwa [put_pairs_self]
  -- the blobs of an entry are neither directories nor buckets
  have hother : ∀ r i, (tbl.put c bid ps).Owns g r i → r ≠ .key q.key → r ≠ .val q.key →
      s.blobs i = b3 i := by
    intro r i ho hk hv
    refine (hsame i).resolve_right ?_
    rintro ⟨h0, rfl | rfl⟩
    . exact hk (h3.role_unique ho (.key hin hq' h0))
    . exact hv (h3.role_unique ho (.val hin hq' h0))
  have hframe : SameFrame g (tbl.put c bid ps) b3 s.blobs := by
    refine ⟨?_, fun t ht => hother _ _ (.leaf ht) nofun nofun,
      fun d hd h0 => hother _ _ (.bucket hd h0) nofun nofun⟩
    rcases h3.shape.levels with ⟨hd, _⟩ | ⟨hd, _⟩
    . rw [← h3.one_level hd]
      exact hother _ _ (.leaf h3.shape.fan_pos) nofun nofun
    . exact hother _ _ (.root hd) nofun nofun
  have hnames := h3.entries_map hframe (f := fun x => (x.2.kspill, entKeyId x.1 x.2, x.2.vspill,
    entValId x.1 x.2)) (q := fun p => (decide (p.kid ≠ 0), p.kid, decide (p.vid ≠ 0), p.vid))
    fun d hd p hp off hs => by
      have hfits := (h3.sound d hd p hp).toFits
      rw [hs.keyId hfits, hs.valId hfits]
      rfl
  have hmem : (decide (q.kid ≠ 0), q.kid, decide (q.vid ≠ 0), q.vid) ∈
      (treePairs g (tbl.put c bid ps) g.fan 0).map
        fun p => (decide (p.kid ≠ 0), p.kid, decide (p.vid ≠ 0), p.vid) :=
    List.mem_map.mpr ⟨q, mem_treePairs.mpr ⟨c, hin, hq'⟩, rfl⟩
  rw [← hnames] at hmem
  obtain ⟨x, hx, he⟩ := List.mem_map.mp hmem
  simp only [Prod.mk.injEq] at he
  refine ⟨x, hx, fun hlive => ?_⟩
  rcases hpart with rfl | rfl
  . obtain ⟨k, hk, _⟩ := hlive.key (he.1.trans (decide_eq_true hid))
    rw [he.2.1, hnone] at hk
    cases hk
  . obtain ⟨v, hv, _⟩ := hlive.val (he.2.2.1.trans (decide_eq_true hid))
    rw [he.2.2.2, hnone] at hv
    cases hv

-- A set in which a write reports an error though it took effect leaves a sound map, unless that write is
-- the commit of a set that has bound blobs of its own.
theorem kvhash_set_dependable (h : MapMade cfg root mc w) (hw : w.Orderly cfg.toStoreCfg)
    (cs : List KvCall) (hp : ∀ r ∈ (lifeOfMap cfg root mc w cs).1, r.Plain) (key val : List UInt8)
    (f : SetFault) (gaps : List Nat) {e : Errno}
    (hreply : (kvStep cfg root (lifeOfMap cfg root mc w cs).2
      (f.call true gaps (.set key val))).1.reply = .err e)
    (hrel : (kvStep cfg root (lifeOfMap cfg root mc w cs).2
      (f.call true gaps (.set key val))).1.Releases)
    (hlanded : ∃ ev ∈ (kvStep cfg root (lifeOfMap cfg root mc w cs).2
      (f.call true gaps (.set key val))).1.events, ev.landedError = true) :
    Dependable cfg root key val (lifeOfMap cfg root mc w cs).2
        (kvStep cfg root (lifeOfMap cfg root mc w cs).2 (f.call true gaps (.set key val))).2 ↔
      ¬ ∃ plan e', lookAt (kvhashSetPlan cfg root key val) (lifeOfMap cfg root mc w cs).2 = .ok plan ∧
        plan.binds ≠ 0 ∧ f = .write plan.commit e' := by
  rw [kvStep_err hreply] at hlanded
  have hno : ∀ {s : World KvRam}, Unlanded s.history →
      ¬ ∃ ev ∈ s.history, ev.landedError = true := by
    rintro s hun ⟨ev, hev, hl⟩
    rw [hun ev hev] at hl
    cases hl
  rcases set_stops h hw cs hp hreply hrel with ⟨geo, tbl, plan, hplan, hst, lim, hfail⟩ | ⟨_, _, _, hs⟩
  . generalize (lifeOfMap cfg root mc w cs).2 = w1 at hplan hst hfail hlanded ⊢
    generalize (kvStep cfg root w1 (f.call true gaps (.set key val))).2 = s at hfail hlanded ⊢
    have hsame : ∀ {plan' : SetPlan}, lookAt (kvhashSetPlan cfg root key val) w1 = .ok plan' →
        plan' = plan := by
      intro plan' hplan'
      exact (Out.ok.inj (hplan.symm.trans hplan')).symm
    cases hfail with
    | back _ _ hun _ => exact (hno hun hlanded).elim
    | unpublished _ turn _ _ _ => cases (SetFault.met turn).2
    | @early e' j hj turn hg =>
      obtain ⟨tbl', hmap, hst', _⟩ := Turned.turnedTo (GrownTo.turned hst hg)
      refine iff_of_true (hst.dependable hst' (.inl hmap)) ?_
      rintro ⟨plan', e'', hplan', _, rfl⟩
      obtain ⟨rfl, _⟩ := SetFault.write.inj (SetFault.met turn).1
      rw [hsame hplan'] at hj
      exact hj.false
    | whole h0 turn ht =>
      obtain ⟨tbl', hmap, hst', _⟩ := Turned.turnedTo ht
      refine iff_of_true (hst.dependable hst' (.inr hmap)) ?_
      rintro ⟨plan', e'', hplan', hbinds, _⟩
      rw [hsame hplan'] at hbinds
      exact hbinds h0
    | @broken e' h0 turn hb =>
      refine iff_of_false (fun hdep => ?_) (not_not.mpr ⟨plan, e', hplan, h0, (SetFault.met turn).1⟩)
      obtain ⟨x, hx, hlost⟩ := hb.dangling hst
      exact hlost (hdep.live x hx)
  . exact (hno hs.unlanded hlanded).elim

-- The commit of a set whose value has a blob of its own.
theorem kvhash_set_dependable_bucket :
    Dependable smallMap 2 [2] [1, 2, 3, 4]
        (lifeOfMap smallMap 2 none blankMap [⟨.set [2] [9], [], [], []⟩]).2
        (kvStep smallMap 2 (lifeOfMap smallMap 2 none blankMap [⟨.set [2] [9], [], [], []⟩]).2
          (SetFault.call (.write 1 Errno.EIO) true [] (.set [2] [1, 2, 3, 4]))).2 ↔
      ¬ ∃ plan e', lookAt (kvhashSetPlan smallMap 2 [2] [1, 2, 3, 4])
          (lifeOfMap smallMap 2 none blankMap [⟨.set [2] [9], [], [], []⟩]).2 = .ok plan ∧
        plan.binds ≠ 0 ∧ SetFault.write 1 Errno.EIO = .write plan.commit e' :=
  kvhash_set_dependable (blankMap_made (by decide +kernel)) blankMap_orderly
    [⟨.set [2] [9], [], [], []⟩] (by decide +kernel) [2] [1, 2, 3, 4] (.write 1 Errno.EIO) []
    (e := Errno.EIO) (by decide +kernel) (by decide +kernel) (by decide +kernel)

-- The clean-up deletes the value that the bucket on flash names.
theorem failed_set_dangles :
    (kvStep smallMap 2 (lifeOfMap smallMap 2 none blankMap [⟨.set [2] [9], [], [], []⟩]).2
        (SetFault.call (.write 1 Errno.EIO) true [] (.set [2] [1, 2, 3, 4]))).1.reply =
        .err Errno.EIO ∧
      (kvStep smallMap 2 (lifeOfMap smallMap 2 none blankMap [⟨.set [2] [9], [], [], []⟩]).2
        (SetFault.call (.write 1 Errno.EIO) true [] (.set [2] [1, 2, 3, 4]))).1.Releases ∧
      lookAt (kvhashGet smallMap 2 [2] 10)
          (lifeOfMap smallMap 2 none blankMap [⟨.set [2] [9], [], [], []⟩]).2 = .ok (.value [9]) ∧
      lookAt (kvhashGet smallMap 2 [2] 10)
          (kvStep smallMap 2 (lifeOfMap smallMap 2 none blankMap [⟨.set [2] [9], [], [], []⟩]).2
            (SetFault.call (.write 1 Errno.EIO) true [] (.set [2] [1, 2, 3, 4]))).2 =
        .err Errno.EIO := by
  decide +kernel

end KeyValueDb.Containers
