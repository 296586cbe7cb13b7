import KeyValueDb.Interfaces.KvdbInstances

/-!
The instances as a system: opens, calls on what was opened, new mounts and losses of power, in any
order. A name keeps its map, and no other name gets it.
-/

namespace KeyValueDb.Kvdb

open Containers Rootreg

variable {cfg : KvdbCfg} {H : Hypothesis (World KvRam)} {l l' : Ledger} {b b' : Blobs}
  {top top' : Nat} {r : KvRam} {touched : Option Nat} {name : CStr} {kc : Option KvdbConfig}

/-! Opening -/

theorem plain_finding {ρ : Type} {w : World ρ} (h : plain.holds w) : finding.holds w := by
  intro ev hev
  have htell := (h ev hev).1
  cases ev with
  | edit e => exact trivial
  | readError id e => exact htell.1

-- The instances are there, with nothing changed but at `touched`.
def Reached (cfg : KvdbCfg) (touched : Option Nat) (l : Ledger) (s : World KvRam) : Prop :=
  ∃ l', Inv cfg l' s.blobs s.top ∧ Later touched l l'

theorem Inv.reached {s : World KvRam} (hi : Inv cfg l b top) (hs : Rests b top r s) :
    Reached cfg touched l s := by
  refine ⟨l, ?_, Later.refl l⟩
  rw [hs.blobs, hs.top]
  exact hi

theorem sees_of_rests {s : World KvRam} (hs : Rests b top r s) :
    Sees b top (r.keyInlineMax, r.valInlineMax) [] [] s :=
  ⟨hs.blobs, hs.top, by rw [hs.ram], List.nil_prefix, List.nil_prefix⟩

-- Nothing but new blobs has changed.
structure Sprung (b : Blobs) (top : Nat) (s : World KvRam) : Prop where
  same : ∀ id ≤ top, s.blobs id = b id
  tidied : Tidies.From top s

theorem Inv.sprung {s : World KvRam} (hi : Inv cfg l b top) (hs : Sprung b top s) :
    Inv cfg l s.blobs s.top :=
  hi.grown hs.same hs.tidied.1 hs.tidied.2.1 hs.tidied.2.2

-- There is a new map, which no meta blob leads to yet.
def Laying (cfg : KvdbCfg) (b : Blobs) (top root : Nat) (s : World KvRam) : Prop :=
  Sprung b top s ∧ ∃ g own, g.root = root ∧
    MapAt cfg.toKvCfg g own (fun _ => none) s.blobs s.top ∧ ∀ id, own id → top < id

theorem newMap_spec {root : Nat} (mc : Option MapConfig) (htidy : ∀ id, top < id → b id = none)
    (hroot : top < root) (hlt : root < 2 ^ 64) :
    Spec H (Rests b root r) (kvhashCreate cfg.toKvCfg root mc)
      ⟨fun _ => Laying cfg b top root, fun _ => Sprung b top, Sprung b top⟩ := by
  have hmade : Spec H (Sees b root (r.keyInlineMax, r.valInlineMax) [] [])
      (kvhashCreate cfg.toKvCfg root mc) _ :=
    kvhashCreate_shared mc (by omega) le_rfl hlt
  have hfrom : Spec H (Rests b root r) (kvhashCreate cfg.toKvCfg root mc)
      (.exits (Tidies.From top) (Tidies.From top) (Tidies.From top)) := by
    refine (kvhashCreate_client mc).tidies.spec fun s hs => ⟨fun id hid => ?_, ?_, ?_⟩
    . rw [hs.top] at hid
      rw [hs.blobs]
      exact htidy id (by omega)
    . rw [hs.top]
      omega
    . rw [hs.top]
      exact hlt
  have hsprung : ∀ {s : World KvRam}, Spares root b root (r.keyInlineMax, r.valInlineMax) s →
      Tidies.From top s → Sprung b top s :=
    fun hs ht => ⟨fun id hid => hs.same id (by omega) (by omega), ht⟩
  refine (hmade.both hfrom).conseq (fun s hs => ⟨sees_of_rests hs, hs⟩) ?_
    (fun e s hs => hsprung hs.1 hs.2) fun s hs => hsprung hs.1 hs.2
  rintro _ s ⟨⟨hs, g, own, hg, hmap, hown⟩, ht⟩
  refine ⟨hsprung hs ht, g, own, hg, hmap, fun id ho => ?_⟩
  rcases hown id ho with rfl | hlt'
  . exact hroot
  . omega

-- The name has got an instance with this root.
def Opened (cfg : KvdbCfg) (l : Ledger) (name : CStr) (root : Nat) (s : World KvRam) : Prop :=
  ∃ l', Inv cfg l' s.blobs s.top ∧ Later none l l' ∧
    ∃ i, l' (nameHash name.chars) = some i ∧ i.name = name ∧ i.shape.root = root

theorem Laying.opened {s : World KvRam} {root : Nat} {mid : UInt64} (hi : Inv cfg l b top)
    (hs : Laying cfg b top root s)
    (hmid : bindings cfg.reg b (kvdbKey (nameHash name.chars)) = some mid)
    (hnone : l (nameHash name.chars) = none) (hlen : name.chars.length ≤ kvdbNameMax)
    (hbuilt : resolve cfg Backend.hash.code = true) {t : Turn} (ht : t.landed = true) :
    Opened cfg l name root
      (s.edit mid.toNat (some (metaImage Backend.hash.code root name.chars)) t) := by
  obtain ⟨hsprung, g, own, rfl, hmap, hown⟩ := hs
  have his := hi.sprung hsprung
  have hbind : bindings cfg.reg s.blobs = bindings cfg.reg b :=
    bindings_congr (hsprung.same _ hi.top_pos)
  refine ⟨_, ?_, Later.insert hnone ⟨name, g, own, fun _ => none⟩, _, Function.update_self _ _ _,
    rfl, rfl⟩
  rw [s.edit_blobs _ _ ht]
  refine his.born (hbind ▸ hmid) hlen hbuilt hmap fun id ho => ⟨?_, ?_, ?_⟩
  . have := hown id ho
    have := hi.top_pos
    simp only [blobDbRootId]
    omega
  . intro h mid' hb
    rw [hbind] at hb
    have := hown id ho
    have := hi.meta_id h mid' hb
    omega
  . intro h i hl ho'
    have := hown id ho
    have := (hi.stored h i hl).ids ho'
    omega

variable (hH : ∀ w, H.holds w → plain.holds w)

include hH

theorem createInstance_spec {mid : UInt64} (hi : Inv cfg l b top)
    (hmid : bindings cfg.reg b (kvdbKey (nameHash name.chars)) = some mid)
    (hnone : l (nameHash name.chars) = none) (hlen : name.chars.length ≤ kvdbNameMax) :
    Spec H (Rests b top r) (createInstance cfg mid.toNat name kc)
      ⟨fun root => Opened cfg l name root, fun _ => Reached cfg none l, Reached cfg none l⟩ := by
  have hstays : ∀ {s : World KvRam}, Sprung b top s → Reached cfg none l s :=
    fun hs => ⟨l, hi.sprung hs, Later.refl l⟩
  refine Spec.ite (fun _ => Spec.fail fun s hs => hi.reached hs) fun hres => ?_
  have hres : resolve cfg (wanted cfg kc).code = true := by simpa using hres
  have hcode : (wanted cfg kc).code = Backend.hash.code := by
    simp only [resolve, Bool.and_eq_true, beq_iff_eq] at hres
    exact hres.2
  rw [hcode] at hres ⊢
  have halloc : Spec H (Rests b top r) blobDbAllocId
      ⟨fun id s => id = 0 ∧ Rests b top r s ∨ (top < id ∧ id < 2 ^ 64) ∧ Rests b id r s,
        fun _ _ => False, fun _ => False⟩ := by
    refine Spec.blobDbAllocId ?_ ?_
    . intro s gap hs hlt
      refine .inr ⟨⟨?_, hlt⟩, hs.blobs, rfl, hs.ram⟩
      rw [hs.top]
      omega
    . exact fun s hs => .inl ⟨rfl, hs.blobs, hs.top, hs.ram⟩
  refine halloc.bind (fun root => ?_) (fun _ _ hf => hf.elim) fun _ hf => hf.elim
  refine Spec.ite (fun h0 => Spec.fail ?_) fun h0 => ?_
  . rintro s (⟨_, hs⟩ | ⟨⟨hlt, _⟩, _⟩)
    . exact hi.reached hs
    . omega
  refine Spec.pre (P := fun s => (top < root ∧ root < 2 ^ 64) ∧ Rests b root r s) ?_
    fun s hs => hs.resolve_left fun h => h0 h.1
  refine Spec.fact fun hnew => ?_
  refine (newMap_spec _ hi.tidy hnew.1 hnew.2).bind (fun _ => ?_) (fun _ s hs => hstays hs)
    fun s hs => hstays hs
  -- the meta blob is written
  have hedit : ∀ {s : World KvRam} {t : Turn}, t.landed = false → Laying cfg b top root s →
      Reached cfg none l
        (s.edit mid.toNat (some (metaImage Backend.hash.code root name.chars)) t) := by
    intro s t ht hs
    refine ⟨l, ?_, Later.refl l⟩
    simp only [World.edit, ht, Bool.false_eq_true, if_false]
    exact hi.sprung hs.1
  have hopened : ∀ {s : World KvRam} {t : Turn}, t.landed = true → Laying cfg b top root s →
      Opened cfg l name root
        (s.edit mid.toNat (some (metaImage Backend.hash.code root name.chars)) t) :=
    fun ht hs => hs.opened hi hmid hnone hlen hres ht
  have hupdate : Spec H (Laying cfg b top root)
      (blobDbUpdate cfg.toStoreCfg mid.toNat (metaImage Backend.hash.code root name.chars))
      ⟨fun _ => Opened cfg l name root, fun _ => Reached cfg none l, Reached cfg none l⟩ := by
    refine Spec.blobDbUpdate ?_ ?_ ?_ ?_
    . exact fun s hs _ => hopened rfl hs
    . intro s e landed hs hh
      obtain ⟨_, rfl⟩ := failed_edit hH hh
      exact hedit rfl hs
    . intro s landed hs _
      cases landed with
      | false => exact hedit rfl hs
      | true =>
        obtain ⟨l', hi', hlater, _⟩ := hopened (t := .cut true) rfl hs
        exact ⟨l', hi', hlater⟩
    . exact fun s hs _ => hstays hs.1
  exact hupdate.bind (fun _ => Spec.ret fun s hs => hs) (fun _ _ h => h) fun _ h => h

-- An instance that is there is found, and a name that only has its hash is told so.
theorem kvdbOpen_known {i : Inst} (hi : Inv cfg l b top) (hl : l (nameHash name.chars) = some i) :
    Spec H (Rests b top r) (kvdbOpen cfg name kc)
      ⟨fun root s => (i.name = name ∧ i.shape.root = root) ∧ Rests b top r s,
        fun e s => (i.name ≠ name → 0 < name.chars.length → name.chars.length ≤ kvdbNameMax →
            e = Errno.EEXIST ∨ ReadFailed s.history) ∧ Rests b top r s,
        fun _ => False⟩ := by
  have hfind : ∀ w, H.holds w → finding.holds w := fun w hw => plain_finding (hH w hw)
  obtain ⟨mid, hmid, hdata⟩ := hi.made _ i hl
  have hroot : i.shape.root < 2 ^ 64 := by
    have := (hi.stored _ i hl).ids (hi.stored _ i hl).root_own
    have := hi.top_lt
    omega
  have hlen := (hi.named _ i hl).2
  refine Spec.ite (fun hbad => Spec.fail fun s hs => ⟨fun _ _ _ => ?_, hs⟩) fun _ => ?_
  . omega
  refine (rootregGetOrCreate_bound hfind (kvdbKey_ne_zero _) hmid).bind (fun id => ?_)
    (fun e s hs => ⟨fun _ _ _ => .inr hs.1, hs.2⟩) fun _ hf => hf
  refine Spec.fact ?_
  rintro rfl
  have hget : Spec H (Rests b top r) (blobDbGet id.toNat kvdbMetaLen)
      ⟨fun data s => data = metaImage Backend.hash.code i.shape.root i.name.chars ∧
          Rests b top r s,
        fun e s => e ≠ Errno.ENOENT ∧ ReadFailed s.history ∧ Rests b top r s, fun _ => False⟩ := by
    refine Spec.blobDbGet ?_ ?_ ?_ ?_
    . intro s data hs hd _
      rw [hs.blobs, hdata] at hd
      exact ⟨(Option.some.inj hd).symm, hs.blobs, hs.top, hs.ram⟩
    . intro s hs hd
      rw [hs.blobs, hdata] at hd
      cases hd
    . intro s data hs hd hlong
      rw [hs.blobs, hdata, Option.some.injEq] at hd
      rw [← hd, metaImage_length hlen] at hlong
      omega
    . intro s e hs hh
      exact ⟨hfind _ hh (.readError _ e) List.mem_cons_self, ⟨_, e, List.mem_cons_self⟩,
        hs.blobs, hs.top, hs.ram⟩
  refine hget.attempt.bind (fun o => ?_) (fun _ _ hf => hf.elim) fun _ hf => hf
  cases o with
  | error e =>
    refine Spec.ite (fun he => ?_) fun _ =>
      Spec.fail fun s hs => ⟨fun _ _ _ => .inr hs.2.1, hs.2.2⟩
    exact Spec.assuming (fun s hs => hs.1) fun hne => absurd he hne
  | ok data =>
    refine Spec.fact ?_
    rintro rfl
    have hnot : (metaImage Backend.hash.code i.shape.root i.name.chars).length ≠ 0 := by
      rw [metaImage_length hlen]
      decide
    refine Spec.ite (fun h0 => absurd h0 hnot) fun _ => ?_
    rw [attach_image (hi.built _ i hl) hroot hlen]
    split
    . next he => exact Spec.ret fun s hs => ⟨⟨he.symm, rfl⟩, hs⟩
    . next he => exact Spec.fail fun s hs => ⟨fun _ _ _ => .inl rfl, hs⟩

-- What the registry says of a name, be it an old root or a new one.
theorem registered_spec (hi : Inv cfg l b top) (h : UInt32) :
    Spec H (Rests b top r) (rootregGetOrCreate cfg.reg (kvdbKey h))
      ⟨fun mid s => Inv cfg l s.blobs s.top ∧ bindings cfg.reg s.blobs (kvdbKey h) = some mid,
        fun _ s => Inv cfg l s.blobs s.top, fun s => Inv cfg l s.blobs s.top⟩ := by
  have hfind : ∀ w, H.holds w → finding.holds w := fun w hw => plain_finding (hH w hw)
  have htidies : Spec H (Rests b top r) (rootregGetOrCreate cfg.reg (kvdbKey h))
      (.exits (Tidies.From top) (Tidies.From top) (Tidies.From top)) := by
    refine (rootregGetOrCreate_client _).tidies.spec fun s hs => ?_
    refine ⟨fun id hid => ?_, hs.top.ge, hs.top ▸ hi.top_lt⟩
    rw [hs.top] at hid
    rw [hs.blobs]
    exact hi.tidy id hid
  have hinv : ∀ s : World KvRam, Wrote cfg.reg (some (kvdbKey h)) none b r s →
      Issued cfg.reg (kvdbKey h) b top s → Tidies.From top s → Inv cfg l s.blobs s.top := by
    intro s hw hissued ht
    refine hi.registered hw.moved ht.1 ht.2.1 ht.2.2 fun h' mid hmid => ?_
    by_cases he : h' = h
    . subst he
      rcases hissued.fresh mid hmid with hold | hnew
      . exact .inl hold
      . exact .inr ⟨rfl, hnew⟩
    . refine .inl ?_
      rw [← hw.moved.own _ fun hk => he (kvdbKey_inj (Option.some.inj hk)).symm, hmid]
  have hcall : Spec H (Rests b top r) (rootregGetOrCreate cfg.reg (kvdbKey h)) _ :=
    rootregGetOrCreate_spec hfind hi.sound (kvdbKey h)
  have hissued : Spec H (Rests b top r) (rootregGetOrCreate cfg.reg (kvdbKey h)) _ :=
    rootregGetOrCreate_issued hfind (kvdbKey h)
  refine (hcall.both (hissued.both htidies)).conseq (fun s hs => ⟨hs, hs, hs⟩) ?_ ?_ ?_
  . exact fun mid s hs => ⟨hinv s hs.1.1 hs.2.1 hs.2.2, hs.1.2.2⟩
  . exact fun e s hs => hinv s hs.1.1 hs.2.1 hs.2.2
  . exact fun s hs => hinv s hs.1 hs.2.1 hs.2.2

theorem kvdbOpen_new (hi : Inv cfg l b top) (hnone : l (nameHash name.chars) = none) :
    Spec H (Rests b top r) (kvdbOpen cfg name kc)
      ⟨fun root => Opened cfg l name root, fun _ => Reached cfg none l, Reached cfg none l⟩ := by
  have hfind : ∀ w, H.holds w → finding.holds w := fun w hw => plain_finding (hH w hw)
  refine Spec.ite (fun _ => Spec.fail fun s hs => hi.reached hs) fun hlen => ?_
  refine (registered_spec hH hi _).bind (fun mid => ?_) (fun e s hs => ⟨l, hs, Later.refl l⟩)
    fun s hs => ⟨l, hs, Later.refl l⟩
  refine Spec.each fun t ht => ?_
  have hunmade := ht.1.unmade _ mid ht.2 hnone
  have hrests : ∀ {s : World KvRam}, t.Reread s → Rests t.blobs t.top t.ram s := by
    rintro s ⟨reads, rfl⟩
    exact ⟨rfl, rfl, rfl⟩
  refine Spec.pre (P := Rests t.blobs t.top t.ram) ?_ fun s hs => hrests hs
  -- there is no meta blob yet
  have hget : Spec H (Rests t.blobs t.top t.ram) (blobDbGet mid.toNat kvdbMetaLen)
      ⟨fun _ _ => False, fun _ => Rests t.blobs t.top t.ram, fun _ => False⟩ := by
    refine blobDbGet_rests hfind ?_ fun _ _ _ hs => hs
    intro data s hd
    rw [hunmade] at hd
    cases hd
  refine hget.attempt.bind (fun o => ?_) (fun _ _ hf => hf.elim) fun _ hf => hf.elim
  cases o with
  | ok data => exact fun s hs => hs.elim
  | error e =>
    refine Spec.ite (fun _ => ?_) fun _ => Spec.fail fun s hs => ht.1.reached hs
    exact createInstance_spec hH ht.1 ht.2 hnone (by omega)

theorem kvdbOpen_spec (hi : Inv cfg l b top) :
    Spec H (Rests b top r) (kvdbOpen cfg name kc)
      ⟨fun root => Opened cfg l name root,
        fun e s => Reached cfg none l s ∧ ∀ i, l (nameHash name.chars) = some i →
          i.name ≠ name → 0 < name.chars.length → name.chars.length ≤ kvdbNameMax →
            e = Errno.EEXIST ∨ ReadFailed s.history,
        fun s => Reached cfg none l s ∧ l (nameHash name.chars) = none⟩ := by
  cases hl : l (nameHash name.chars) with
  | none =>
    exact (kvdbOpen_new hH hi hl).conseq (fun _ hs => hs) (fun _ _ h => h)
      (fun _ _ h => ⟨h, nofun⟩) fun _ h => ⟨h, rfl⟩
  | some i =>
    refine (kvdbOpen_known hH hi hl).conseq (fun _ hs => hs) ?_ ?_ fun _ h => h.elim
    . rintro root s ⟨⟨hname, hroot⟩, hs⟩
      refine ⟨l, ?_, Later.refl l, i, hl, hname, hroot⟩
      rw [hs.blobs, hs.top]
      exact hi
    . rintro e s ⟨htold, hs⟩
      refine ⟨hi.reached hs, fun i' hi' => ?_⟩
      cases hi'
      exact htold

/-! Calls on what was opened -/

theorem kvCall_spec {h : UInt32} {i : Inst} (hi : Inv cfg l b top) (hl : l h = some i) (op : KvOp) :
    Spec H (Rests b top r) (op.run cfg.toKvCfg i.shape.root)
      ⟨fun a s => Reached cfg (some i.shape.root) l s ∧
          ∃ m', KvMap.Step (keyCmp cfg.toKvCfg i.shape) op (.ok a) i.map m',
        fun e s => Reached cfg (some i.shape.root) l s ∧
          ∃ m', KvMap.Step (keyCmp cfg.toKvCfg i.shape) op (.err e) i.map m',
        Reached cfg (some i.shape.root) l⟩ := by
  have hcall : Spec H (Sees b top (r.keyInlineMax, r.valInlineMax) [] [])
      (op.run cfg.toKvCfg i.shape.root) _ := KvOp.run_shared hH (hi.stored h i hl) op
  have hfrom : Spec H (Rests b top r) (op.run cfg.toKvCfg i.shape.root)
      (.exits (Tidies.From top) (Tidies.From top) (Tidies.From top)) := by
    refine (KvOp.run_client _ _ op).tidies.spec fun s hs => ⟨fun id hid => ?_, hs.top.ge, hs.top ▸ hi.top_lt⟩
    rw [hs.top] at hid
    rw [hs.blobs]
    exact hi.tidy id hid
  have hreached : ∀ {s : World KvRam} {m' : KvMap} {own' : Nat → Prop},
      MapAt cfg.toKvCfg i.shape own' m' s.blobs s.top →
      Beside i.own b top own' s.blobs s.top → Tidies.From top s →
      Reached cfg (some i.shape.root) l s :=
    fun hmap hbeside ht => ⟨_, hi.beside hl hmap hbeside ht.1⟩
  refine (hcall.both hfrom).conseq (fun s hs => ⟨sees_of_rests hs, hs⟩) ?_ ?_ ?_
  . rintro a s ⟨⟨m', own', hstep, hmap, hbeside⟩, ht⟩
    exact ⟨hreached hmap hbeside ht, m', hstep⟩
  . rintro e s ⟨⟨m', own', hstep, hmap, hbeside⟩, ht⟩
    exact ⟨hreached hmap hbeside ht, m', hstep⟩
  . rintro s ⟨⟨m', own', _, hmap, hbeside⟩, ht⟩
    exact hreached hmap hbeside ht

theorem kvdbSet_spec {h : UInt32} {i : Inst} (hi : Inv cfg l b top) (hl : l h = some i) (key : CStr)
    (val : List UInt8) :
    Spec H (Rests b top r) (kvdbSet cfg i.shape.root key val)
      (.exits (Reached cfg (some i.shape.root) l) (Reached cfg (some i.shape.root) l)
        (Reached cfg (some i.shape.root) l)) :=
  (kvCall_spec hH hi hl (.set key.chars val)).of_map.conseq (fun _ hs => hs) (fun _ _ h => h.1)
    (fun _ _ h => h.1) fun _ h => h

theorem kvdbDelete_spec {h : UInt32} {i : Inst} (hi : Inv cfg l b top) (hl : l h = some i)
    (key : CStr) :
    Spec H (Rests b top r) (kvdbDelete cfg i.shape.root key)
      (.exits (Reached cfg (some i.shape.root) l) (Reached cfg (some i.shape.root) l)
        (Reached cfg (some i.shape.root) l)) :=
  (kvCall_spec hH hi hl (.del key.chars)).of_map.conseq (fun _ hs => hs) (fun _ _ h => h.1)
    (fun _ _ h => h.1) fun _ h => h

theorem kvhashGet_shared {h : UInt32} {i : Inst} (hi : Inv cfg l b top) (hl : l h = some i)
    (key : List UInt8) (outSz : Nat) :
    Spec H (Rests b top r) (kvhashGet cfg.toKvCfg i.shape.root key outSz)
      ⟨fun f s => Reached cfg (some i.shape.root) l s ∧
          ∃ v, i.map key = some v ∧ f = fetched outSz v,
        fun e s => Reached cfg (some i.shape.root) l s ∧ (e = Errno.ENOENT → i.map key = none),
        Reached cfg (some i.shape.root) l⟩ := by
  refine (kvCall_spec hH hi hl (.get key outSz)).of_map.conseq (fun _ hs => hs) ?_ ?_ fun _ h => h
  . rintro f s ⟨hs, m', hstep⟩
    cases hstep with
    | got _ hv => exact ⟨hs, _, hv, rfl⟩
  . rintro e s ⟨hs, m', hstep⟩
    refine ⟨hs, ?_⟩
    rintro rfl
    cases hstep with
    | notGot _ hnone => exact hnone
    | failed _ _ he => exact absurd rfl he.1

theorem kvdbHas_spec {h : UInt32} {i : Inst} (hi : Inv cfg l b top) (hl : l h = some i)
    (key : CStr) :
    Spec H (Rests b top r) (kvdbHas cfg i.shape.root key)
      (.exits (Reached cfg (some i.shape.root) l) (Reached cfg (some i.shape.root) l)
        (Reached cfg (some i.shape.root) l)) := by
  refine (kvhashGet_shared hH hi hl key.chars 0).attempt.bind (fun o => ?_)
    (fun _ _ hf => hf.elim) fun _ h => h
  cases o with
  | ok f => exact Spec.ret fun s hs => hs.1
  | error e => exact Spec.ret fun s hs => hs.1

omit hH

/-! The system -/

inductive KvdbOp where
  -- blob_db_mount and rootreg_init
  | mount
  | openDb (slot : Nat) (name : CStr) (kc : Option KvdbConfig)
  | set (slot : Nat) (key : CStr) (val : List UInt8)
  | get (slot : Nat) (key : CStr) (outSz : Nat)
  | delete (slot : Nat) (key : CStr)
  | has (slot : Nat) (key : CStr)
  | powerOff

-- A call together with what the store does while it runs.
structure KvdbCall where
  op : KvdbOp
  turns : List Turn := []
  allocs : List (Option Nat) := []
  reads : List (Option Errno) := []

inductive KvdbAnswer where
  | done
  | opened (root : Nat)
  | value (f : Fetched)
  | present (yes : Bool)
  deriving Repr, DecidableEq

abbrev KvdbReply := Out Errno KvdbAnswer

structure KvdbResult where
  reply : KvdbReply
  events : List Event

-- The flash, the RAM of the layers below and the handles of the client.
structure KvdbState where
  world : World KvRam
  handles : Nat → Option Nat

-- A call without a handle gets a null pointer.
def onHandle {α : Type} (handles : Nat → Option Nat) (slot : Nat) (f : Nat → K α) : K α :=
  match handles slot with
  | none => Proc.fail Errno.EINVAL
  | some root => f root

def KvdbOp.run (cfg : KvdbCfg) (handles : Nat → Option Nat) : KvdbOp → K KvdbAnswer
  | .mount => do
    rootregInit cfg.reg
    pure .done
  | .openDb _ name kc => do
    let root ← kvdbOpen cfg name kc
    pure (.opened root)
  | .set slot key val => do
    onHandle handles slot fun root => kvdbSet cfg root key val
    pure .done
  | .get slot key outSz => do
    let f ← onHandle handles slot fun root => kvdbGet cfg root key outSz
    pure (.value f)
  | .delete slot key => do
    onHandle handles slot fun root => kvdbDelete cfg root key
    pure .done
  | .has slot key => do
    let yes ← onHandle handles slot fun root => kvdbHas cfg root key
    pure (.present yes)
  | .powerOff => Proc.cut

-- The handles once the call has replied.
def KvdbOp.handles (handles : Nat → Option Nat) : KvdbOp → KvdbReply → Nat → Option Nat
  | .openDb slot _ _, .ok (.opened root) => Function.update handles slot (some root)
  | _, .cut => fun _ => none
  | _, _ => handles

-- The map that a call works on.
def KvdbOp.touches (handles : Nat → Option Nat) : KvdbOp → Option Nat
  | .set slot _ _ => handles slot
  | .get slot _ _ => handles slot
  | .delete slot _ => handles slot
  | .has slot _ => handles slot
  | _ => none

def KvdbState.enter (s : KvdbState) (c : KvdbCall) : World KvRam :=
  { s.world with
    turns := c.turns
    allocs := c.allocs
    reads := c.reads
    history := [] }

def kvdbStep (cfg : KvdbCfg) (s : KvdbState) (c : KvdbCall) : KvdbResult × KvdbState :=
  match c.op.run cfg s.handles (s.enter c) with
  | (.cut, w) => (⟨.cut, w.history⟩, ⟨w.setRam (KvRam.boot cfg.toKvCfg), fun _ => none⟩)
  | (o, w) => (⟨o, w.history⟩, ⟨w, c.op.handles s.handles o⟩)

def runKvdb (cfg : KvdbCfg) (s : KvdbState) : List KvdbCall → List KvdbResult × KvdbState
  | [] => ([], s)
  | c :: cs =>
    let x := kvdbStep cfg s c
    let rest := runKvdb cfg x.2 cs
    (x.1 :: rest.1, rest.2)

-- Nothing failed that says that something is not there, and what failed has left its blob unchanged.
def KvdbResult.Plain (x : KvdbResult) : Prop :=
  ∀ ev ∈ x.events, ev.Telling ∧ ∀ e, ev = .edit e → ∀ err, e.turn ≠ .error err true

instance (x : KvdbResult) : Decidable x.Plain :=
  decidable_of_iff (∀ ev ∈ x.events, ev.Telling ∧ ev.landedError = false)
    (by simp only [KvdbResult.Plain, Event.landedError_iff])

/-! One call -/

-- What a reply says of the instances before the call, `l`, and after it.
def Fits (l l' : Ledger) (handles : Nat → Option Nat) (hist : List Event) :
    KvdbOp → KvdbReply → Prop
  | .openDb _ name _, .ok (.opened root) =>
    ∃ i, l' (nameHash name.chars) = some i ∧ i.name = name ∧ i.shape.root = root
  | .openDb _ _ _, .ok _ => False
  | .openDb _ name _, .err e => ∀ i, l (nameHash name.chars) = some i → i.name ≠ name →
    0 < name.chars.length → name.chars.length ≤ kvdbNameMax → e = Errno.EEXIST ∨ ReadFailed hist
  | .openDb _ name _, .cut => l (nameHash name.chars) = none
  | .get slot key outSz, .ok (.value f) => ∀ h i, l h = some i → handles slot = some i.shape.root →
    ∃ v, i.map key.chars = some v ∧ f = fetched outSz v
  | .get slot key _, .err e => ∀ h i, l h = some i → handles slot = some i.shape.root →
    e = Errno.ENOENT → i.map key.chars = none
  | _, _ => True

def opPost (cfg : KvdbCfg) (l : Ledger) (handles : Nat → Option Nat) (op : KvdbOp) :
    Post (World KvRam) Errno KvdbAnswer where
  ok a s := ∃ l', Inv cfg l' s.blobs s.top ∧ Later (op.touches handles) l l' ∧
    Fits l l' handles s.history op (.ok a)
  err e s := ∃ l', Inv cfg l' s.blobs s.top ∧ Later (op.touches handles) l l' ∧
    Fits l l' handles s.history op (.err e)
  cut s := ∃ l', Inv cfg l' s.blobs s.top ∧ Later (op.touches handles) l l' ∧
    Fits l l' handles s.history op .cut

-- Each handle leads to an instance.
def Handled (l : Ledger) (handles : Nat → Option Nat) : Prop :=
  ∀ slot root, handles slot = some root → ∃ h i, l h = some i ∧ i.shape.root = root

theorem Inv.stays {s : World KvRam} (hi : Inv cfg l b top) (hs : Rests b top r s) :
    ∃ l', Inv cfg l' s.blobs s.top ∧ Later touched l l' :=
  hi.reached hs

-- A call that says no more than that it keeps the instances.
theorem onHandle_spec {α : Type} {handles : Nat → Option Nat} {slot : Nat} {f : Nat → K α}
    (hi : Inv cfg l b top) (hh : Handled l handles)
    (hf : ∀ h i, l h = some i → Spec H (Rests b top r) (f i.shape.root)
      (.exits (Reached cfg (some i.shape.root) l) (Reached cfg (some i.shape.root) l)
        (Reached cfg (some i.shape.root) l))) :
    Spec H (Rests b top r) (onHandle handles slot f)
      (.exits (Reached cfg (handles slot) l) (Reached cfg (handles slot) l)
        (Reached cfg (handles slot) l)) := by
  unfold onHandle
  cases hslot : handles slot with
  | none => exact Spec.fail fun s hs => hi.reached hs
  | some root =>
    obtain ⟨h, i, hl, rfl⟩ := hh slot root hslot
    exact hf h i hl

include hH

-- What a get says is what the map of its handle has.
theorem kvdbGet_spec {handles : Nat → Option Nat} {slot : Nat} (hi : Inv cfg l b top)
    (hh : Handled l handles) (key : CStr) (outSz : Nat) :
    Spec H (Rests b top r) (onHandle handles slot fun root => kvdbGet cfg root key outSz)
      ⟨fun f s => Reached cfg (handles slot) l s ∧ ∀ h i, l h = some i →
          handles slot = some i.shape.root → ∃ v, i.map key.chars = some v ∧ f = fetched outSz v,
        fun e s => Reached cfg (handles slot) l s ∧ ∀ h i, l h = some i →
          handles slot = some i.shape.root → e = Errno.ENOENT → i.map key.chars = none,
        Reached cfg (handles slot) l⟩ := by
  unfold onHandle
  cases hslot : handles slot with
  | none => exact Spec.fail fun s hs => ⟨hi.reached hs, fun _ _ _ => nofun⟩
  | some root =>
    obtain ⟨h, i, hl, rfl⟩ := hh slot root hslot
    have hsame : ∀ h' i', l h' = some i' → some i.shape.root = some i'.shape.root → i' = i := by
      intro h' i' hl' hroot
      have := hi.root_inj hl hl' (Option.some.inj hroot)
      subst this
      rw [hl, Option.some.injEq] at hl'
      exact hl'.symm
    refine (kvhashGet_shared hH hi hl key.chars outSz).conseq (fun _ hs => hs) ?_ ?_ fun _ h => h
    . rintro f s ⟨hs, hv⟩
      refine ⟨hs, fun h' i' hl' hroot => ?_⟩
      rw [hsame h' i' hl' hroot]
      exact hv
    . rintro e s ⟨hs, hnone⟩
      refine ⟨hs, fun h' i' hl' hroot => ?_⟩
      rw [hsame h' i' hl' hroot]
      exact hnone

theorem KvdbOp.run_spec {handles : Nat → Option Nat} (hi : Inv cfg l b top) (hh : Handled l handles)
    (op : KvdbOp) : Spec H (Rests b top r) (op.run cfg handles) (opPost cfg l handles op) := by
  have hfind : ∀ w, H.holds w → finding.holds w := fun w hw => plain_finding (hH w hw)
  cases op with
  | mount =>
    have hinit : Spec H (Rests b top r) (rootregInit cfg.reg) _ := rootregInit_spec hfind hi.sound
    have hfrom : Spec H (Rests b top r) (rootregInit cfg.reg)
        (.exits (Tidies.From top) (Tidies.From top) (Tidies.From top)) := by
      refine rootregInit_client.tidies.spec fun s hs => ⟨fun id hid => ?_, hs.top.ge, hs.top ▸ hi.top_lt⟩
      rw [hs.top] at hid
      rw [hs.blobs]
      exact hi.tidy id hid
    have hinv : ∀ s : World KvRam, Wrote cfg.reg none none b r s → Tidies.From top s →
        ∃ l', Inv cfg l' s.blobs s.top ∧ Later none l l' := by
      intro s hw ht
      refine ⟨l, hi.registered hw.moved ht.1 ht.2.1 ht.2.2 fun h mid hmid => .inl ?_, Later.refl l⟩
      rw [← hw.moved.own _ nofun, hmid]
    refine ((hinit.both hfrom).pre fun s hs => ⟨hs, hs⟩).bind (fun _ => Spec.ret ?_) ?_ ?_
    . rintro s ⟨⟨hw, _⟩, ht⟩
      obtain ⟨l', hi', hlater⟩ := hinv s hw ht
      exact ⟨l', hi', hlater, trivial⟩
    . rintro e s ⟨⟨hw, _⟩, ht⟩
      obtain ⟨l', hi', hlater⟩ := hinv s hw ht
      exact ⟨l', hi', hlater, trivial⟩
    . rintro s ⟨hw, ht⟩
      obtain ⟨l', hi', hlater⟩ := hinv s hw ht
      exact ⟨l', hi', hlater, trivial⟩
  | openDb slot name kc =>
    refine (kvdbOpen_spec hH hi).bind (fun root => Spec.ret ?_) ?_ ?_
    . rintro s ⟨l', hi', hlater, hopened⟩
      exact ⟨l', hi', hlater, hopened⟩
    . rintro e s ⟨⟨l', hi', hlater⟩, htold⟩
      exact ⟨l', hi', hlater, htold⟩
    . rintro s ⟨⟨l', hi', hlater⟩, hnone⟩
      exact ⟨l', hi', hlater, hnone⟩
  | set slot key val =>
    refine (onHandle_spec hi hh fun h i hl => kvdbSet_spec hH hi hl key val).bind
      (fun _ => Spec.ret ?_) ?_ ?_
    . exact fun s ⟨l', hi', hlater⟩ => ⟨l', hi', hlater, trivial⟩
    . exact fun e s ⟨l', hi', hlater⟩ => ⟨l', hi', hlater, trivial⟩
    . exact fun s ⟨l', hi', hlater⟩ => ⟨l', hi', hlater, trivial⟩
  | get slot key outSz =>
    refine (kvdbGet_spec hH hi hh key outSz).bind (fun f => Spec.ret ?_) ?_ ?_
    . exact fun s ⟨⟨l', hi', hlater⟩, hv⟩ => ⟨l', hi', hlater, hv⟩
    . exact fun e s ⟨⟨l', hi', hlater⟩, hnone⟩ => ⟨l', hi', hlater, hnone⟩
    . exact fun s ⟨l', hi', hlater⟩ => ⟨l', hi', hlater, trivial⟩
  | delete slot key =>
    refine (onHandle_spec hi hh fun h i hl => kvdbDelete_spec hH hi hl key).bind
      (fun _ => Spec.ret ?_) ?_ ?_
    . exact fun s ⟨l', hi', hlater⟩ => ⟨l', hi', hlater, trivial⟩
    . exact fun e s ⟨l', hi', hlater⟩ => ⟨l', hi', hlater, trivial⟩
    . exact fun s ⟨l', hi', hlater⟩ => ⟨l', hi', hlater, trivial⟩
  | has slot key =>
    refine (onHandle_spec hi hh fun h i hl => kvdbHas_spec hH hi hl key).bind
      (fun _ => Spec.ret ?_) ?_ ?_
    . exact fun s ⟨l', hi', hlater⟩ => ⟨l', hi', hlater, trivial⟩
    . exact fun e s ⟨l', hi', hlater⟩ => ⟨l', hi', hlater, trivial⟩
    . exact fun s ⟨l', hi', hlater⟩ => ⟨l', hi', hlater, trivial⟩
  | powerOff =>
    refine Spec.cut fun s hs => ?_
    obtain ⟨l', hi', hlater⟩ := hi.stays hs
    exact ⟨l', hi', hlater, trivial⟩

omit hH

/-! Runs -/

-- The store has these instances, and each handle leads to one of them.
structure Holds (cfg : KvdbCfg) (l : Ledger) (s : KvdbState) : Prop where
  inv : Inv cfg l s.world.blobs s.world.top
  handled : Handled l s.handles

variable {s : KvdbState} {c : KvdbCall}

theorem Handled.later {handles : Nat → Option Nat} (hh : Handled l handles)
    (hlater : Later touched l l') : Handled l' handles := by
  intro slot root hslot
  obtain ⟨h, i, hl, hroot⟩ := hh slot root hslot
  obtain ⟨i', hl', _, hshape, _⟩ := hlater h i hl
  exact ⟨h, i', hl', by rw [hshape, hroot]⟩

-- A handle was there before, or comes from the open.
theorem KvdbOp.handles_cases {op : KvdbOp} {handles : Nat → Option Nat} {reply : KvdbReply}
    {slot root : Nat} (h : op.handles handles reply slot = some root) :
    handles slot = some root ∨
      ∃ slot' name kc, op = .openDb slot' name kc ∧ reply = .ok (.opened root) := by
  cases op with
  | openDb slot' name kc =>
    cases reply with
    | ok a =>
      cases a with
      | opened root' =>
        by_cases he : slot = slot'
        . subst he
          simp only [KvdbOp.handles, Function.update_self, Option.some.injEq] at h
          exact .inr ⟨slot, name, kc, rfl, by rw [h]⟩
        . simp only [KvdbOp.handles, Function.update_of_ne he] at h
          exact .inl h
      | _ => exact .inl h
    | err e => exact .inl h
    | cut => cases h
  | _ =>
    cases reply with
    | cut => cases h
    | _ => exact .inl h

-- One call.
theorem kvdbStep_holds (h : Holds cfg l s) (hp : (kvdbStep cfg s c).1.Plain) :
    ∃ l', Holds cfg l' (kvdbStep cfg s c).2 ∧ Later (c.op.touches s.handles) l l' ∧
      Fits l l' s.handles (kvdbStep cfg s c).1.events c.op (kvdbStep cfg s c).1.reply := by
  have hpost := KvdbOp.run_spec (H := plain) (r := s.world.ram) (fun _ hw => hw) h.inv h.handled c.op
    (s.enter c) ⟨rfl, rfl, rfl⟩
  simp only [kvdbStep] at hp ⊢
  generalize c.op.run cfg s.handles (s.enter c) = x at hpost hp
  obtain ⟨o, w⟩ := x
  cases o with
  | ok a =>
    obtain ⟨l', hi', hlater, hfits⟩ := hpost hp
    refine ⟨l', ⟨hi', ?_⟩, hlater, hfits⟩
    intro slot root hslot
    rcases KvdbOp.handles_cases hslot with hold | ⟨slot', name, kc, hop, ha⟩
    . exact h.handled.later hlater slot root hold
    . rw [hop, ha] at hfits
      obtain ⟨i, hl, _, hroot⟩ := hfits
      exact ⟨_, i, hl, hroot⟩
  | err e =>
    obtain ⟨l', hi', hlater, hfits⟩ := hpost hp
    refine ⟨l', ⟨hi', ?_⟩, hlater, hfits⟩
    have hsame : c.op.handles s.handles (.err e) = s.handles := by
      cases c.op <;> rfl
    simp only [hsame]
    exact h.handled.later hlater
  | cut =>
    obtain ⟨l', hi', hlater, hfits⟩ := hpost hp
    exact ⟨l', ⟨hi', nofun⟩, hlater, hfits⟩

-- Some call of the run has opened the name and got this root.
def OpenedBy (cfg : KvdbCfg) (s : KvdbState) (cs : List KvdbCall) (name : CStr) (root : Nat) : Prop :=
  ∃ x ∈ cs.zip (runKvdb cfg s cs).1, (∃ slot kc, x.1.op = .openDb slot name kc) ∧
    x.2.reply = .ok (.opened root)

theorem runKvdb_append (s : KvdbState) (cs cs' : List KvdbCall) :
    runKvdb cfg s (cs ++ cs') =
      ((runKvdb cfg s cs).1 ++ (runKvdb cfg (runKvdb cfg s cs).2 cs').1,
        (runKvdb cfg (runKvdb cfg s cs).2 cs').2) := by
  induction cs generalizing s with
  | nil => rfl
  | cons c cs ih => simp only [List.cons_append, runKvdb, ih]

-- The instances after a run: the ones before it, and whatever it has opened.
theorem runKvdb_holds (cs : List KvdbCall) (h : Holds cfg l s)
    (hp : ∀ x ∈ (runKvdb cfg s cs).1, x.Plain) :
    ∃ l', Holds cfg l' (runKvdb cfg s cs).2 ∧
      (∀ h i, l h = some i → ∃ i', l' h = some i' ∧ i'.name = i.name ∧ i'.shape = i.shape) ∧
      ∀ name root, OpenedBy cfg s cs name root →
        ∃ i, l' (nameHash name.chars) = some i ∧ i.name = name ∧ i.shape.root = root := by
  induction cs generalizing l s with
  | nil => exact ⟨l, h, fun _ i hl => ⟨i, hl, rfl, rfl⟩, fun _ _ ⟨_, hx, _⟩ => by cases hx⟩
  | cons c cs ih =>
    obtain ⟨l₁, h₁, hlater, hfits⟩ := kvdbStep_holds h (hp _ List.mem_cons_self)
    obtain ⟨l₂, h₂, hkeeps, hopened⟩ := ih h₁ fun x hx => hp x (List.mem_cons_of_mem _ hx)
    refine ⟨l₂, h₂, fun h' i hl => ?_, ?_⟩
    . obtain ⟨i₁, hl₁, hname₁, hshape₁, _⟩ := hlater h' i hl
      obtain ⟨i₂, hl₂, hname₂, hshape₂⟩ := hkeeps h' i₁ hl₁
      exact ⟨i₂, hl₂, hname₂.trans hname₁, hshape₂.trans hshape₁⟩
    . rintro name root ⟨x, hx, ⟨slot, kc, hop⟩, hreply⟩
      rcases List.mem_cons.mp hx with rfl | hx
      . rw [hop, hreply] at hfits
        obtain ⟨i, hl, hname, hroot⟩ := hfits
        obtain ⟨i₂, hl₂, hname₂, hshape₂⟩ := hkeeps _ i hl
        exact ⟨i₂, hl₂, hname₂.trans hname, by rw [hshape₂, hroot]⟩
      . exact hopened name root ⟨x, hx, ⟨slot, kc, hop⟩, hreply⟩

-- A mounted store in which no instance was ever opened.
structure Unused (cfg : KvdbCfg) (s : KvdbState) : Prop where
  sound : Sound cfg.reg s.world.blobs
  none_yet : ∀ h, bindings cfg.reg s.world.blobs (kvdbKey h) = none
  tidy : s.world.Tidy
  top_pos : 1 ≤ s.world.top
  top_lt : s.world.top < 2 ^ 64
  no_handles : s.handles = fun _ => none

theorem Unused.holds (h : Unused cfg s) : Holds cfg (fun _ => none) s where
  inv :=
    { sound := h.sound
      tidy := h.tidy
      top_pos := h.top_pos
      top_lt := h.top_lt
      meta_id := fun x mid hb => by rw [h.none_yet x] at hb; cases hb
      meta_inj := fun x _ mid hb => by rw [h.none_yet x] at hb; cases hb
      unmade := fun x mid hb => by rw [h.none_yet x] at hb; cases hb
      made := nofun
      named := nofun
      built := nofun
      stored := nofun
      own_ids := nofun
      disjoint := nofun }
  handled := by
    rw [h.no_handles]
    exact nofun

-- Opens of one name get one root, whatever else they ask for, and opens of two names get two. A name
-- that has only the hash of an opened one is refused. What a call does to one instance is not seen in
-- another, and a get answers from the map of its instance.
theorem kvdb_instances_apart (h : Unused cfg s) (cs : List KvdbCall) (c : KvdbCall)
    (hp : ∀ x ∈ (runKvdb cfg s (cs ++ [c])).1, x.Plain) :
    (∀ name name' root root', OpenedBy cfg s (cs ++ [c]) name root →
      OpenedBy cfg s (cs ++ [c]) name' root' → (name = name' ↔ root = root')) ∧
    (∀ slot name name' kc root, c.op = .openDb slot name' kc → OpenedBy cfg s cs name root →
      name ≠ name' → nameHash name.chars = nameHash name'.chars → 0 < name'.chars.length →
      name'.chars.length ≤ kvdbNameMax →
      (kvdbStep cfg (runKvdb cfg s cs).2 c).1.reply = .err Errno.EEXIST ∨
        ReadFailed (kvdbStep cfg (runKvdb cfg s cs).2 c).1.events) ∧
    (∀ name root, OpenedBy cfg s cs name root →
      c.op.touches (runKvdb cfg s cs).2.handles ≠ some root →
      kvSeen cfg.toKvCfg root (kvdbStep cfg (runKvdb cfg s cs).2 c).2.world =
        kvSeen cfg.toKvCfg root (runKvdb cfg s cs).2.world) ∧
    ∀ slot key outSz name root, c.op = .get slot key outSz → OpenedBy cfg s cs name root →
      (runKvdb cfg s cs).2.handles slot = some root →
      (∀ f, (kvdbStep cfg (runKvdb cfg s cs).2 c).1.reply = .ok (.value f) →
        ∃ v, kvSeen cfg.toKvCfg root (runKvdb cfg s cs).2.world key.chars = some v ∧
          f = fetched outSz v) ∧
      ((kvdbStep cfg (runKvdb cfg s cs).2 c).1.reply = .err Errno.ENOENT →
        kvSeen cfg.toKvCfg root (runKvdb cfg s cs).2.world key.chars = none) := by
  have happ := @runKvdb_append cfg s cs [c]
  have hbefore : ∀ x ∈ (runKvdb cfg s cs).1, x.Plain := fun x hx =>
    hp x (by rw [happ]; exact List.mem_append_left _ hx)
  have hlast : (kvdbStep cfg (runKvdb cfg s cs).2 c).1.Plain :=
    hp _ (by rw [happ]; exact List.mem_append_right _ List.mem_cons_self)
  obtain ⟨l, hl, _, hopened⟩ := runKvdb_holds cs h.holds hbefore
  obtain ⟨l', hl', hlater, hfits⟩ := kvdbStep_holds hl hlast
  refine ⟨?_, ?_, ?_, ?_⟩
  . obtain ⟨l₂, h₂, _, hall⟩ := runKvdb_holds (cs ++ [c]) h.holds hp
    intro name name' root root' ho ho'
    obtain ⟨i, hi, rfl, rfl⟩ := hall name root ho
    obtain ⟨i', hi', rfl, rfl⟩ := hall name' root' ho'
    constructor
    . intro hname
      rw [hname, hi', Option.some.injEq] at hi
      rw [hi]
    . intro hroot
      have hhash := h₂.inv.root_inj hi hi' hroot
      rw [hhash, hi', Option.some.injEq] at hi
      rw [hi]
  . intro slot name name' kc root hop ho hne hhash hpos hlen
    obtain ⟨i, hi, rfl, _⟩ := hopened name root ho
    rw [hhash] at hi
    rw [hop] at hfits
    generalize hr : (kvdbStep cfg (runKvdb cfg s cs).2 c).1.reply = reply at hfits
    cases reply with
    | ok a =>
      -- there is one instance under this hash, and it has the other name
      obtain ⟨i', hi', hname', _, _⟩ := hlater _ i hi
      cases a with
      | opened root' =>
        obtain ⟨i'', hi'', hname'', _⟩ := hfits
        rw [hi', Option.some.injEq] at hi''
        rw [hi'', hname''] at hname'
        exact absurd hname'.symm hne
      | _ => exact hfits.elim
    | err e => exact (hfits i hi hne hpos hlen).imp (fun he => by rw [he]) id
    | cut =>
      rw [Fits, hi] at hfits
      cases hfits
  . intro name root ho hnot
    obtain ⟨i, hi, _, rfl⟩ := hopened name root ho
    obtain ⟨i', hi', _, hshape, hmap⟩ := hlater _ i hi
    have hafter := (hl'.inv.stored _ i' hi').seen
    rw [hshape] at hafter
    rw [hafter, (hl.inv.stored _ i hi).seen, hmap hnot]
  . intro slot key outSz name root hop ho hslot
    obtain ⟨i, hi, _, rfl⟩ := hopened name root ho
    rw [hop] at hfits
    rw [(hl.inv.stored _ i hi).seen]
    constructor
    . intro f hf
      rw [hf] at hfits
      exact hfits _ i hi hslot
    . intro he
      rw [he] at hfits
      exact hfits _ i hi hslot rfl

-- A build with small payloads and room for three roots.
def smallKvdb : KvdbCfg where
  toKvCfg := smallMap
  maxRoots := 3
  roots_le := by decide
  image_le := by decide
  kvhashBuilt := true
  defaultBackend := .hash

-- A store as format leaves it.
def formattedKvdb : KvdbState where
  world := ⟨fun id => if id = 1 then some [] else none, 1, 0, [], [], [], KvRam.boot smallMap, []⟩
  handles := fun _ => none

theorem formattedKvdb_unused : Unused smallKvdb formattedKvdb where
  sound := nofun
  none_yet _ := rfl
  tidy id hid := if_neg (by have : 1 < id := hid; omega)
  top_pos := by decide
  top_lt := by decide
  no_handles := rfl

-- Two names with one hash.
def liquid : CStr := ⟨[0x6c, 0x69, 0x71, 0x75, 0x69, 0x64], by decide⟩
def costarring : CStr :=
  ⟨[0x63, 0x6f, 0x73, 0x74, 0x61, 0x72, 0x72, 0x69, 0x6e, 0x67], by decide⟩
def other : CStr := ⟨[0x62], by decide⟩

-- An open is cut before its meta blob is written, another one is refused, and a third is for a name
-- that has a map already.
def mixedNames : List KvdbCall :=
  [⟨.mount, [], [], []⟩, ⟨.openDb 0 liquid none, [.done, .done, .cut false], [], []⟩,
    ⟨.mount, [], [], []⟩, ⟨.openDb 0 liquid none, [], [], []⟩, ⟨.openDb 1 costarring none, [], [], []⟩,
    ⟨.openDb 1 other none, [], [], []⟩, ⟨.set 0 other [1, 2], [], [], []⟩,
    ⟨.openDb 2 liquid (some ⟨.tree, 100, 0, 0⟩), [], [], []⟩]

theorem kvdb_instances_apart_mixed :
    (runKvdb smallKvdb formattedKvdb (mixedNames ++ [⟨.set 1 liquid [3], [], [], []⟩])).1.map
        KvdbResult.reply =
      [.ok .done, .cut, .ok .done, .ok (.opened 4), .err Errno.EEXIST, .ok (.opened 6), .ok .done,
        .ok (.opened 4), .ok .done] ∧
      kvSeen smallMap 4 (kvdbStep smallKvdb (runKvdb smallKvdb formattedKvdb mixedNames).2
          ⟨.set 1 liquid [3], [], [], []⟩).2.world =
        kvSeen smallMap 4 (runKvdb smallKvdb formattedKvdb mixedNames).2.world := by
  refine ⟨by decide +kernel, ?_⟩
  refine (kvdb_instances_apart formattedKvdb_unused mixedNames _ (by decide +kernel)).2.2.1 liquid 4
    ⟨_, List.mem_of_getElem? (i := 3) rfl, ⟨0, none, rfl⟩, by decide +kernel⟩ (by decide +kernel)

end KeyValueDb.Kvdb
