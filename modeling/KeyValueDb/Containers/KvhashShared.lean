import KeyValueDb.Containers.KvhashRuns

/-!
A map among other blobs. Its calls touch the blobs that it owns and new ones; everything else stays,
and what does not belong to the map does not come to belong to it.
-/

namespace KeyValueDb.Containers

variable {cfg : KvCfg} {H : Hypothesis (World KvRam)} {g : Shape} {tbl : Table} {b b' : Blobs}
  {top top' : Nat} {lim : Nat × Nat} {dir bkt : List UInt8} {m : KvMap} {root : Nat}
  {own own' : Nat → Prop}

-- The store holds the map `m` in the blobs `own`, or an unusable one in its root alone.
def MapAt (cfg : KvCfg) (g : Shape) (own : Nat → Prop) (m : KvMap) (b : Blobs) (top : Nat) : Prop :=
  (∃ tbl, Stored cfg g tbl b top ∧ tbl.map cfg g = m ∧ ∀ id, own id ↔ ∃ r, tbl.Owns g r id) ∨
    ((Oversized cfg g.root b ∧ 0 < g.root ∧ g.root ≤ top ∧ top < 2 ^ 64) ∧ (m = fun _ => none) ∧
      ∀ id, own id ↔ id = g.root)

-- Blobs and ids after a call on the map in `own`, which then is in `own'`.
structure Beside (own : Nat → Prop) (b : Blobs) (top : Nat) (own' : Nat → Prop) (b' : Blobs)
    (top' : Nat) : Prop where
  top_le : top ≤ top'
  same : ∀ id ≤ top, ¬ own id → b' id = b id
  apart : ∀ id ≤ top, ¬ own id → ¬ own' id

theorem Beside.refl : Beside own b top own b top := ⟨le_rfl, fun _ _ _ => rfl, fun _ _ h => h⟩

theorem Beside.of_moves {tbl' : Table} (h : Moves g tbl b top tbl' b' top')
    (hown : ∀ id, own id ↔ ∃ r, tbl.Owns g r id) :
    Beside own b top (fun id => ∃ r, tbl'.Owns g r id) b' top' where
  top_le := h.top_le
  same id hid hno := h.same id hid fun r hr => hno ((hown id).mpr ⟨r, hr⟩)
  apart id hid hno := by
    rintro ⟨r, hr⟩
    exact h.apart id hid (fun r hr => hno ((hown id).mpr ⟨r, hr⟩)) r hr

namespace MapAt

theorem keeps (h : MapAt cfg g own m b top) : Keeps cfg g m b top := by
  rcases h with ⟨tbl, hs, hm, _⟩ | ⟨hs, hm, _⟩
  . exact .inl ⟨tbl, hs, hm⟩
  . exact .inr ⟨hs.1, hm⟩

theorem top_lt (h : MapAt cfg g own m b top) : top < 2 ^ 64 := by
  rcases h with ⟨tbl, hs, _, _⟩ | ⟨hs, _, _⟩
  . exact hs.top_lt
  . exact hs.2.2.2

theorem ids (h : MapAt cfg g own m b top) {id : Nat} (ho : own id) : 0 < id ∧ id ≤ top := by
  rcases h with ⟨tbl, hs, _, hown⟩ | ⟨hs, _, hown⟩
  . obtain ⟨r, hr⟩ := (hown id).mp ho
    exact hs.ids r id hr
  . rw [(hown id).mp ho]
    exact ⟨hs.2.1, hs.2.2.1⟩

theorem root_own (h : MapAt cfg g own m b top) : own g.root := by
  rcases h with ⟨tbl, hs, _, hown⟩ | ⟨hs, _, hown⟩
  . rw [hown]
    rcases hs.shape.levels with ⟨hd, hfan⟩ | ⟨hd, _⟩
    . refine ⟨.leaf 0, ?_⟩
      rw [← hs.one_level hd]
      exact .leaf (by omega)
    . exact ⟨.root, .root hd⟩
  . exact (hown _).mpr rfl

-- Only the blobs of the map matter.
theorem congr (h : MapAt cfg g own m b top) (hb : ∀ id, own id → b' id = b id) (htop : top ≤ top')
    (hlt : top' < 2 ^ 64) : MapAt cfg g own m b' top' := by
  have hroot := h.root_own
  rcases h with ⟨tbl, hs, hm, hown⟩ | ⟨⟨⟨data, hdata, hlong⟩, hpos, hle, _⟩, hm, hown⟩
  . refine .inl ⟨tbl, hs.congr (fun r id ho => hb id ?_) htop hlt, hm, hown⟩
    exact (hown id).mpr ⟨r, ho⟩
  . refine .inr ⟨⟨⟨data, ?_, hlong⟩, hpos, hle.trans htop, hlt⟩, hm, hown⟩
    rw [hb _ hroot, hdata]

theorem seen {w : World KvRam} (h : MapAt cfg g own m w.blobs w.top) : kvSeen cfg g.root w = m :=
  h.keeps.seen

end MapAt

/-! A new map -/

-- Other blobs than the root are as they were, unless they are new.
structure Spares (root : Nat) (b : Blobs) (top : Nat) (lim : Nat × Nat) (s : World KvRam) :
    Prop where
  top_le : top ≤ s.top
  top_lt : s.top < 2 ^ 64
  lim : (s.ram.keyInlineMax, s.ram.valInlineMax) = lim
  same : ∀ id ≤ top, id ≠ root → s.blobs id = b id

theorem Spares.edit {s : World KvRam} (h : Spares root b top lim s) {id : Nat}
    (hid : id = root ∨ top < id) (data : Option (List UInt8)) (t : Turn) :
    Spares root b top lim (s.edit id data t) where
  top_le := h.top_le
  top_lt := h.top_lt
  lim := h.lim
  same i hi hne := by
    simp only [World.edit]
    split
    . rw [Function.update_of_ne (by omega)]
      exact h.same i hi hne
    . exact h.same i hi hne

theorem kvUpdate_spares {id : Nat} (hid : id = root ∨ top < id) (payload : List UInt8) :
    Spec H (Spares root b top lim) (kvUpdate cfg id payload)
      (.exits (Spares root b top lim) (Spares root b top lim) (Spares root b top lim)) :=
  Spec.blobDbUpdate (fun _ hs _ => hs.edit hid _ _) (fun _ _ _ hs _ => hs.edit hid _ _)
    (fun _ _ hs _ => hs.edit hid _ _) fun _ hs _ => hs

theorem createSubs_spares (nSub k i : Nat) :
    Spec H (Spares root b top lim) (createSubs cfg nSub k i)
      (.exits (Spares root b top lim) (Spares root b top lim) (Spares root b top lim)) := by
  induction k generalizing i with
  | zero => exact Spec.ret fun s hs => hs
  | succ k ih =>
    have halloc : Spec H (Spares root b top lim) (blobDbAllocId : K Nat)
        ⟨fun id s => (id = 0 ∨ top < id) ∧ Spares root b top lim s, fun _ _ => False,
          fun _ => False⟩ := by
      refine Spec.blobDbAllocId ?_ ?_
      . intro s gap hs hlt
        have htop := hs.top_le
        exact ⟨.inr (by omega), by show top ≤ s.top + 1 + gap; omega, hlt, hs.lim, hs.same⟩
      . exact fun s hs => ⟨.inl rfl, hs.top_le, hs.top_lt, hs.lim, hs.same⟩
    refine halloc.bind (fun sub => Spec.fact fun hsub => ?_) (fun _ _ hf => hf.elim)
      fun _ hf => hf.elim
    refine Spec.ite (fun _ => Spec.fail fun _ hs => hs) fun h0 => ?_
    have hnew : sub = root ∨ top < sub := .inr (hsub.resolve_left h0)
    refine Spec.read_bind fun buf => ?_
    refine ((kvUpdate_spares hnew _).pre fun s hs => hs.2).seq fun _ => ?_
    intro s hs hh
    exact ih (i + 1) _ ⟨hs.top_le, hs.top_lt, hs.lim, hs.same⟩ hh

-- Whatever comes of it, a create touches its root and new blobs only.
theorem kvhashCreate_spares (mc : Option MapConfig) :
    Spec H (Spares root b top lim) (kvhashCreate cfg root mc)
      (.exits (Spares root b top lim) (Spares root b top lim) (Spares root b top lim)) := by
  rw [kvhashCreate]
  cases deriveGeometry cfg mc with
  | none => exact Spec.cut fun _ hs => hs
  | some r =>
    cases r with
    | error e => exact Spec.fail fun _ hs => hs
    | ok geo =>
      refine Spec.ite (fun _ => ?_) fun _ => ?_
      . intro s hs hh
        exact kvUpdate_spares (.inl rfl) _ _ ⟨hs.top_le, hs.top_lt, hs.lim, hs.same⟩ hh
      . have hgo : Spec H (Spares root b top lim)
            (do
              createSubs cfg geo.nSub geo.nTop 0
              let buf ← dirBuf
              kvUpdate cfg root (buf.take (dirLen geo.nTop)))
            (.exits (Spares root b top lim) (Spares root b top lim) (Spares root b top lim)) := by
          refine (createSubs_spares _ _ _).seq fun _ => Spec.read_bind fun buf => ?_
          exact (kvUpdate_spares (.inl rfl) _).pre fun s hs => hs.2
        intro s hs hh
        exact hgo _ ⟨hs.top_le, hs.top_lt, hs.lim, hs.same⟩ hh

theorem kvhashCreate_shared (mc : Option MapConfig) (hpos : 0 < root) (hle : root ≤ top)
    (hlt : top < 2 ^ 64) :
    Spec H (Sees b top lim dir bkt) (kvhashCreate cfg root mc)
      ⟨fun _ s => Spares root b top lim s ∧ ∃ g own, g.root = root ∧
          MapAt cfg g own (fun _ => none) s.blobs s.top ∧ ∀ id, own id → id = root ∨ top < id,
        fun _ => Spares root b top lim, Spares root b top lim⟩ := by
  have hspares : ∀ s : World KvRam, Sees b top lim dir bkt s → Spares root b top lim s :=
    fun s hs => ⟨hs.top.ge, hs.top ▸ hlt, hs.lim, fun _ _ _ => by rw [hs.blobs]⟩
  have hframe : Spec H (Spares root b top lim) (kvhashCreate cfg root mc) _ :=
    kvhashCreate_spares mc
  have hmade : Spec H (Sees b top lim dir bkt) (kvhashCreate cfg root mc) _ :=
    kvhashCreate_started mc hpos hle hlt
  refine (hframe.both hmade).conseq (fun s hs => ⟨hspares s hs, hs⟩) ?_ (fun _ _ h => h.1)
    fun _ h => h.1
  rintro _ s ⟨hs, geo, _, b', top', hsees, ⟨leaf, hstored, hbig, hleaf⟩, _, _⟩
  have htop : top' = s.top := hsees.top.symm
  refine ⟨hs, geo.shape root, ?_⟩
  by_cases hfits : dirLen geo.nTop ≤ cfg.maxPayload
  . refine ⟨_, rfl, .inl ⟨Table.empty leaf, ?_, rfl, fun _ => Iff.rfl⟩, ?_⟩
    . rw [hsees.blobs, ← htop]
      exact hstored hfits
    . rintro id ⟨r, ho⟩
      rcases Table.empty_owns ho with ⟨_, _, rfl⟩ | ⟨t, ht, _, rfl⟩
      . exact .inl rfl
      . exact hleaf t ht
  . refine ⟨(· = root), rfl, .inr ⟨⟨?_, hpos, hle.trans hs.top_le, hs.top_lt⟩, rfl,
      fun _ => Iff.rfl⟩, fun _ h => .inl h⟩
    rw [hsees.blobs]
    exact hbig (by omega)

/-! Calls -/

-- Each exit is one that the finite map has too, and leaves the other blobs.
def sharedPost (cfg : KvCfg) (g : Shape) (own : Nat → Prop) (op : KvOp) (m : KvMap) (b : Blobs)
    (top : Nat) : Post (World KvRam) Errno KvAnswer where
  ok a s := ∃ m' own', KvMap.Step (keyCmp cfg g) op (.ok a) m m' ∧
    MapAt cfg g own' m' s.blobs s.top ∧ Beside own b top own' s.blobs s.top
  err e s := ∃ m' own', KvMap.Step (keyCmp cfg g) op (.err e) m m' ∧
    MapAt cfg g own' m' s.blobs s.top ∧ Beside own b top own' s.blobs s.top
  cut s := ∃ m' own', KvMap.Step (keyCmp cfg g) op .cut m m' ∧
    MapAt cfg g own' m' s.blobs s.top ∧ Beside own b top own' s.blobs s.top


theorem TurnedTo.mapAt {s : World KvRam} (h : TurnedTo cfg g tbl b top m s)
    (hown : ∀ id, own id ↔ ∃ r, tbl.Owns g r id) :
    ∃ own', MapAt cfg g own' m s.blobs s.top ∧ Beside own b top own' s.blobs s.top := by
  obtain ⟨tbl', hm, hstored, hmoves⟩ := h
  exact ⟨_, .inl ⟨tbl', hstored, hm, fun _ => Iff.rfl⟩, Beside.of_moves hmoves hown⟩

theorem KvOp.run_shared (hH : ∀ w, H.holds w → plain.holds w) (h : MapAt cfg g own m b top)
    (op : KvOp) :
    Spec H (Sees b top lim dir bkt) (op.run cfg g.root) (sharedPost cfg g own op m b top) := by
  rcases h with ⟨tbl, hstored, rfl, hown⟩ | ⟨⟨hover, hpos, hle, hlt⟩, rfl, hown⟩
  . refine (KvOp.run_turned hH hstored op).conseq (fun _ hs => hs) ?_ ?_ ?_
    . rintro a s ⟨m', hstep, hturned⟩
      obtain ⟨own', hmap, hbeside⟩ := hturned.mapAt hown
      exact ⟨m', own', hstep, hmap, hbeside⟩
    . rintro e s ⟨m', hstep, hturned⟩
      obtain ⟨own', hmap, hbeside⟩ := hturned.mapAt hown
      exact ⟨m', own', hstep, hmap, hbeside⟩
    . rintro s ⟨m', hstep, hturned⟩
      obtain ⟨own', hmap, hbeside⟩ := hturned.mapAt hown
      exact ⟨m', own', hstep, hmap, hbeside⟩
  . have hstill : ∀ s : World KvRam, s.blobs = b ∧ s.top = top →
        MapAt cfg g own (fun _ => none) s.blobs s.top ∧ Beside own b top own s.blobs s.top := by
      rintro s ⟨hb, htop⟩
      rw [hb, htop]
      exact ⟨.inr ⟨⟨hover, hpos, hle, hlt⟩, rfl, hown⟩, Beside.refl⟩
    have htell : ∀ w, H.holds w → telling.holds w := fun w hw => plain_telling (hH w hw)
    refine (KvOp.run_oversized htell hover (keyCmp cfg g) op).conseq (fun _ hs => hs) ?_ ?_ ?_
    . exact fun a s hs => ⟨_, own, hs.1, hstill s hs.2⟩
    . exact fun e s hs => ⟨_, own, hs.1, hstill s hs.2⟩
    . exact fun s hs => ⟨_, own, .cut _ _, hstill s hs.2⟩

end KeyValueDb.Containers
