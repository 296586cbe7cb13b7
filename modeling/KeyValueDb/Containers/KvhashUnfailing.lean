import KeyValueDb.Containers.KvhashTeardown

/-!
Taking a map apart where nothing fails but the power. No call of the store reports an error then, so a
destroy that is not stopped ends with every blob of the map gone, and one that is stopped leaves a map
that is going, which the next one finishes.
-/

namespace KeyValueDb.Containers

variable {ρ α β : Type} {cfg : StoreCfg} {cap top : Nat} {w : World ρ}

-- The store does what it is asked to, unless power is lost.
def Turn.Powered (t : Turn) : Prop := ∀ e landed, t ≠ .error e landed

-- Nothing has failed, and nothing but the power will. At most `cap` bytes are taken, and `top` ids are
-- handed out.
structure Unfailing (cfg : StoreCfg) (cap top : Nat) (w : World ρ) : Prop where
  reads : w.reads = []
  turns : ∀ t ∈ w.turns, t.Powered
  tallied : Tallied cfg w.blobs w.used
  room : w.used ≤ cap
  ids : w.top = top
  quiet : ¬ Trouble w.history

def untroubled : Hypothesis (World ρ) where
  holds w := ¬ Trouble w.history
  anti h hh := fun ⟨ev, hev, hf⟩ => hh ⟨ev, List.IsSuffix.subset h hev, hf⟩

theorem untroubled_telling (w : World ρ) (h : untroubled.holds w) : telling.holds w := by
  intro ev hev
  cases ev with
  | edit e => exact fun err landed ht => absurd ⟨_, hev, err, landed, ht⟩ h
  | readError id e => exact absurd ⟨_, hev, trivial⟩ h

-- Only the RAM is touched.
def Beheld (t w : World ρ) : Prop := t.reads = [] ∧ ∃ r, w = t.setRam r

def Looks (x : M ρ α) : Prop := ∀ t, Maintains (Beheld t) x

theorem Views.looks {x : M ρ α} (hx : Views x) : Looks x := by
  intro t
  refine hx (Beheld t) ⟨?_, ?_, ?_⟩
  . rintro w ⟨hr, r, rfl⟩
    refine ⟨hr, r, ?_⟩
    have hw : (t.setRam r).reads = [] := hr
    simp only [World.readDone, hw, List.tail_nil]
    rw [← hw]
  . rintro w id e he ⟨hr, r, rfl⟩
    have hw : (t.setRam r).reads = [] := hr
    rw [hw] at he
    cases he
  . rintro w r ⟨hr, r', rfl⟩
    exact ⟨hr, r, rfl⟩

theorem Looks.run {x : M ρ α} (h : Looks x) (hw : w.reads = []) : ∃ r, (x w).2 = w.setRam r :=
  (h w w ⟨hw, w.ram, rfl⟩).2

namespace Unfailing

theorem setRam (h : Unfailing cfg cap top w) (r : ρ) : Unfailing cfg cap top (w.setRam r) :=
  ⟨h.reads, h.turns, h.tallied, h.room, h.ids, h.quiet⟩

theorem nextTurn (h : Unfailing cfg cap top w) : w.nextTurn.Powered := by
  unfold World.nextTurn
  cases ht : w.turns with
  | nil => exact nofun
  | cons t ts => exact h.turns t (by simp [ht])

theorem looks {x : M ρ α} (hx : Looks x) : Maintains (Unfailing cfg cap top) x := by
  intro w hw
  obtain ⟨r, hr⟩ := hx.run hw.reads
  rw [hr]
  exact hw.setRam r

theorem edit (h : Unfailing cfg cap top w) {id : Nat} {data : Option (List UInt8)} {t : Turn}
    (ht : t.Powered) (hle : (data.getD []).length ≤ w.blobs.size id) :
    Unfailing cfg cap top (w.edit id data t) := by
  have hsize := h.tallied.size_le id
  have hused := h.tallied.1
  have hroom := h.room
  refine ⟨h.reads, fun u hu => h.turns u (List.mem_of_mem_tail hu), ?_, ?_, h.ids, ?_⟩
  . simp only [World.edit]
    split
    . exact h.tallied.update (by omega)
    . exact h.tallied
  . simp only [World.edit]
    split
    . omega
    . exact hroom
  . rintro ⟨ev, hev, hf⟩
    rcases List.mem_cons.mp hev with rfl | hev
    . obtain ⟨e, landed, he⟩ := hf
      exact ht e landed he
    . exact h.quiet ⟨ev, hev, hf⟩

theorem blobDbDelete (id : Nat) : Maintains (Unfailing cfg cap top) (Containers.blobDbDelete id : M ρ Unit) := by
  intro w hw
  unfold Containers.blobDbDelete
  rw [Proc.bind_run, Proc.read_run, Proc.step]
  split
  . exact hw.edit hw.nextTurn (Nat.zero_le _)
  . exact hw

-- A blob gets no longer than it is.
theorem blobDbUpdate {id : Nat} {payload : List UInt8} (h : Unfailing cfg cap top w)
    (hle : payload.length ≤ w.blobs.size id) :
    Unfailing cfg cap top (Containers.blobDbUpdate cfg id payload w).2 := by
  have hused := h.tallied.1
  unfold Containers.blobDbUpdate
  rw [Proc.bind_run, Proc.read_run, Proc.step]
  split
  . exact h
  . have hfits : decide (w.used + payload.length ≤ cfg.partition + w.blobs.size id) = true :=
      decide_eq_true (by omega)
    rw [Proc.bind_run, Proc.read_run, Proc.step, hfits]
    exact h.edit h.nextTurn hle

theorem deletes : Deletes (Unfailing cfg cap top : World ρ → Prop) where
  done w h := ⟨by rw [World.readDone, h.reads, List.tail_nil], h.turns, h.tallied, h.room, h.ids, h.quiet⟩
  failed w id e he h := by
    rw [h.reads] at he
    cases he
  ram w r h := h.setRam r
  delete := Unfailing.blobDbDelete

end Unfailing

/-! The calls of a map -/

variable {kcfg : KvCfg} {g : Shape} {tbl : Table} {b b0 : Blobs} {root : Nat} {s : World KvRam}

section

theorem dirCheck_ok {buf : List UInt8} {got : Nat} {d : DirInfo}
    (h : dirCheck cfg buf got = .ok d) : dirLen d.n ≤ got := by
  unfold dirCheck at h
  simp only at h
  split at h
  . cases h
  . split at h
    . cases h
    . split at h
      . cases h
      . split at h
        . cases h
        . next hn =>
          split at h
          . cases h
          . cases h
            simp only
            omega

-- What loads as a directory is no shorter than a directory of so many entries.
theorem dirLoadRaw_sized {H : Hypothesis (World KvRam)} :
    Spec H (fun s => s.blobs = b) (dirLoadRaw kcfg root)
      ⟨fun d s => dirLen d.n ≤ b.size root ∧ s.blobs = b, fun _ s => s.blobs = b,
        fun _ => False⟩ := by
  have hget : Spec H (fun s => s.blobs = b) (getDir kcfg root)
      ⟨fun got s => got = b.size root ∧ s.blobs = b, fun _ s => s.blobs = b, fun _ => False⟩ := by
    refine Spec.bind (Q := ⟨fun data s => b root = some data ∧ s.blobs = b, fun _ s => s.blobs = b,
      fun _ => False⟩) ?_ (fun data => Spec.fact fun hdata => ?_) (fun _ _ h => h) fun _ h => h
    . refine Spec.blobDbGet ?_ (fun _ h _ => h) (fun _ _ h _ _ => h) fun _ _ h _ => h
      rintro s data rfl hdata _
      exact ⟨hdata, rfl⟩
    . intro s hs _
      exact ⟨by rw [Blobs.size, hdata]; rfl, hs⟩
  refine hget.bind (fun got => Spec.fact ?_) (fun _ _ h => h) fun _ h => h
  rintro rfl
  refine Spec.bind (Q := ⟨fun _ s => s.blobs = b, fun _ _ => False, fun _ => False⟩)
    (Spec.read fun _ hs => hs) (fun buf => ?_) (fun _ _ h => h.elim) fun _ h => h
  cases hcheck : dirCheck kcfg.toStoreCfg buf (b.size root) with
  | ok d => exact Spec.ret fun s hs => ⟨dirCheck_ok hcheck, hs⟩
  | error e => exact Spec.fail fun s hs => hs

-- Whatever the root holds, a destroy asks for nothing that the store could refuse.
theorem kvhashDestroy_unfailing (root : Nat) :
    Maintains (Unfailing kcfg.toStoreCfg cap top) (kvhashDestroy kcfg root) := by
  refine Maintains.of_spec fun H => ?_
  intro t ht
  have hlook : Maintains (Unfailing kcfg.toStoreCfg cap top) (dirLoadRaw kcfg root) :=
    Unfailing.looks (dirLoadRaw_views root).looks
  have hload := (dirLoadRaw_sized (b := t.blobs) (H := H)).both (hlook.spec H)
  have hstamp : ∀ d : DirInfo, dirLen d.n ≤ t.blobs.size root →
      Spec H (fun s => s.blobs = t.blobs ∧ Unfailing kcfg.toStoreCfg cap top s)
        (stampDying kcfg root d.n)
        (.exits (Unfailing kcfg.toStoreCfg cap top) (Unfailing kcfg.toStoreCfg cap top)
          (Unfailing kcfg.toStoreCfg cap top)) := by
    intro d hd
    refine Spec.bind (Q := .exits (fun s => s.blobs = t.blobs ∧ Unfailing kcfg.toStoreCfg cap top s)
      (fun _ => False) fun _ => False) (fun s hs _ => ⟨hs.1, hs.2.setRam _⟩) (fun _ => ?_)
      (fun _ _ h => h.elim) fun _ h => h.elim
    refine (@Spec.razeDir _ []) (fun _ _ => List.nil_prefix) fun buf _ => ?_
    intro s hs _
    have hle : (buf.take (dirLen d.n)).length ≤ s.blobs.size root := by
      rw [hs.1, List.length_take]
      omega
    have hdone := hs.2.blobDbUpdate hle
    show Post.Holds _ (blobDbUpdate _ _ _ s)
    generalize blobDbUpdate kcfg.toStoreCfg root (buf.take (dirLen d.n)) s = r at hdone
    obtain ⟨o, u⟩ := r
    cases o <;> exact hdone
  have hgo : Spec H (fun s => s.blobs = t.blobs ∧ Unfailing kcfg.toStoreCfg cap top s)
      (kvhashDestroy kcfg root)
      (.exits (Unfailing kcfg.toStoreCfg cap top) (Unfailing kcfg.toStoreCfg cap top)
        (Unfailing kcfg.toStoreCfg cap top)) := by
    rw [kvhashDestroy]
    refine hload.bind (fun d => ?_) (fun _ _ h => h.2) fun _ h => h.2
    refine Spec.assuming (fun s h => h.1.1) fun hd => ?_
    refine Spec.bind (Q := .exits (Unfailing kcfg.toStoreCfg cap top)
      (Unfailing kcfg.toStoreCfg cap top) (Unfailing kcfg.toStoreCfg cap top)) ?_ (fun _ => ?_)
      (fun _ _ h => h) fun _ h => h
    . exact Spec.when (fun s h => h.2) fun _ => (hstamp d hd).pre fun s h => ⟨h.1.2, h.2⟩
    . refine Maintains.spec (Maintains.ite
        ((releaseBuckets_clears _ _ _ _ Unfailing.deletes).bind ?hend)
        ((releaseSubs_clears _ _ _ _ _ Unfailing.deletes).bind ?hend)) H
      intro err
      cases err with
      | some e => exact Maintains.fail _
      | none => exact Unfailing.blobDbDelete _
  exact hgo t ⟨rfl, ht⟩

end

/-! A map, or what a destroy has left of it -/

variable {H : Hypothesis (World KvRam)} {own : Nat → Prop} {b' : Blobs}

-- The map is stored in the blobs `own`.
def MapWhole (cfg : KvCfg) (root : Nat) (own : Nat → Prop) (b : Blobs) (top : Nat) : Prop :=
  ∃ g tbl, g.root = root ∧ Stored cfg g tbl b top ∧ ∀ id, own id ↔ ∃ r, tbl.Owns g r id

-- Its root says that it is being destroyed, or is gone with all the rest.
def MapGoing (cfg : KvCfg) (root : Nat) (own : Nat → Prop) (b : Blobs) (top : Nat) : Prop :=
  ∃ g tbl b0, g.root = root ∧ Stored cfg g tbl b0 top ∧ (∀ id, own id ↔ ∃ r, tbl.Owns g r id) ∧
    Doomed g tbl b0 b

def MapLeft (cfg : KvCfg) (root : Nat) (own : Nat → Prop) (b : Blobs) (top : Nat) : Prop :=
  MapWhole cfg root own b top ∨ MapGoing cfg root own b top

-- The blobs `own` are gone, and nothing else has changed.
structure Cleared (own : Nat → Prop) (b b' : Blobs) : Prop where
  gone : ∀ id, own id → b' id = none
  same : ∀ id, ¬ own id → b' id = b id

theorem MapWhole.congr (h : MapWhole kcfg root own b top) (hb : ∀ id, own id → b' id = b id) :
    MapWhole kcfg root own b' top := by
  obtain ⟨g, tbl, hroot, hs, hown⟩ := h
  exact ⟨g, tbl, hroot, hs.congr (fun r id ho => hb id ((hown id).mpr ⟨r, ho⟩)) le_rfl hs.top_lt, hown⟩

theorem MapGoing.congr (h : MapGoing kcfg root own b top) (hb : ∀ id, own id → b' id = b id) :
    MapGoing kcfg root own b' top := by
  classical
  obtain ⟨g, tbl, b0, hroot, hs, hown, hd⟩ := h
  have hmem : ∀ {r id}, tbl.Owns g r id → own id := fun ho => (hown _).mpr ⟨_, ho⟩
  -- the map as it was, among the other blobs as they are now
  have hs' : Stored kcfg g tbl (fun id => if own id then b0 id else b' id) top :=
    hs.congr (fun r id ho => if_pos (hmem ho)) le_rfl hs.top_lt
  have hrootOwn : own g.root := by
    obtain ⟨r, ho, _⟩ := hs.owns_root
    exact hmem ho
  refine ⟨g, tbl, _, hroot, hs', hown, ⟨?_, ?_⟩⟩
  . refine ⟨fun id hno => (if_neg fun ho => ?_).symm, fun r id ho hne => ?_, fun c hc h0 hnone p hp => ?_,
      fun t ht hnone i hi h0 => ?_, fun hdepth hnone t ht => ?_⟩
    . obtain ⟨r, hr⟩ := (hown id).mp ho
      exact hno r hr
    . rw [hb id (hmem ho), if_pos (hmem ho)]
      exact hd.partly.same r id ho hne
    . rw [hb _ (hmem (.bucket hc h0))] at hnone
      obtain ⟨hk, hv⟩ := hd.partly.cell c hc h0 hnone p hp
      constructor
      . intro h
        rw [hb _ (hmem (.key hc hp h))]
        exact hk h
      . intro h
        rw [hb _ (hmem (.val hc hp h))]
        exact hv h
    . rw [hb _ (hmem (.leaf ht))] at hnone
      rw [hb _ (hmem (.bucket ⟨ht, hi⟩ h0))]
      exact hd.partly.leaf t ht hnone i hi h0
    . rw [hb _ hrootOwn] at hnone
      rw [hb _ (hmem (.leaf ht))]
      exact hd.partly.top hdepth hnone t ht
  . rw [hb _ hrootOwn]
    exact hd.root

theorem MapLeft.congr (h : MapLeft kcfg root own b top) (hb : ∀ id, own id → b' id = b id) :
    MapLeft kcfg root own b' top :=
  h.imp (fun h => h.congr hb) fun h => h.congr hb

-- With all its blobs gone, a map is one that was destroyed.
theorem MapLeft.cleared (h : MapLeft kcfg root own b top) (hc : Cleared own b b') :
    MapGoing kcfg root own b' top := by
  have hgone : ∀ (g : Shape) (tbl : Table) (b0 : Blobs), g.root = root → Stored kcfg g tbl b0 top →
      (∀ id, own id ↔ ∃ r, tbl.Owns g r id) → (∀ id, ¬ own id → b id = b0 id) →
      MapGoing kcfg root own b' top := by
    intro g tbl b0 hroot hs hown hrest
    have hnone : ∀ {r id}, tbl.Owns g r id → b' id = none := fun ho =>
      hc.gone _ ((hown _).mpr ⟨_, ho⟩)
    obtain ⟨r, ho, _⟩ := hs.owns_root
    refine ⟨g, tbl, b0, hroot, hs, hown, ⟨?_, .inr (hnone ho)⟩⟩
    refine ⟨fun id hno => ?_, fun _ _ ho _ => .inr (hnone ho), fun c hc h0 _ p hp => ?_,
      fun t ht _ i hi h0 => hnone (.bucket ⟨ht, hi⟩ h0), fun _ _ t ht => hnone (.leaf ht)⟩
    . have hnot : ¬ own id := fun hmem => by
        obtain ⟨r, hr⟩ := (hown id).mp hmem
        exact hno r hr
      rw [hc.same id hnot, hrest id hnot]
    . exact ⟨fun h => hnone (.key hc hp h), fun h => hnone (.val hc hp h)⟩
  rcases h with ⟨g, tbl, hroot, hs, hown⟩ | ⟨g, tbl, b0, hroot, hs, hown, hd⟩
  . exact hgone g tbl b hroot hs hown fun _ _ => rfl
  . refine hgone g tbl b0 hroot hs hown fun id hno => hd.partly.rest id fun r hr => ?_
    exact hno ((hown id).mpr ⟨r, hr⟩)

theorem Cleared.of_partly (hs : Stored kcfg g tbl b0 top) (hp : Partly g tbl b0 b')
    (hroot : b' g.root = none) (hown : ∀ id, own id ↔ ∃ r, tbl.Owns g r id)
    (hrest : ∀ id, ¬ own id → b id = b0 id) : Cleared own b b' where
  gone id ho := by
    obtain ⟨r, hr⟩ := (hown id).mp ho
    exact hp.gone hs hroot hr
  same id hno := by
    rw [hrest id hno]
    exact hp.rest id fun r hr => hno ((hown id).mpr ⟨r, hr⟩)

-- How a destroy ends where only the power fails. A map that is gone already is not found.
def razedPost (cfg : KvCfg) (cap : Nat) (root : Nat) (own : Nat → Prop) (b : Blobs) (top : Nat) :
    Post (World KvRam) Errno Unit where
  ok _ s := Cleared own b s.blobs ∧ Unfailing cfg.toStoreCfg cap top s
  err e s := (e = Errno.ENOENT ∧ s.blobs = b ∧ Cleared own b b) ∧ Unfailing cfg.toStoreCfg cap top s
  cut s := (s.blobs = b ∨ MapGoing cfg root own s.blobs top ∧ ∀ id, ¬ own id → s.blobs id = b id) ∧
    Unfailing cfg.toStoreCfg cap top s

theorem Unfailing.untroubled (h : Unfailing cfg cap top w) : untroubled.holds w := h.quiet

theorem destroyLeft_spec (hmax : kcfg.maxPayload ≤ kcfg.maxObject)
    (h : MapLeft kcfg root own b top) :
    Spec H (fun s => s.blobs = b ∧ Unfailing kcfg.toStoreCfg cap top s) (kvhashDestroy kcfg root)
      (razedPost kcfg cap root own b top) := by
  have hcalm := (@kvhashDestroy_unfailing cap top kcfg) root
  have hI : ∀ s : World KvRam, Unfailing kcfg.toStoreCfg cap top s → untroubled.holds s :=
    fun s hs => hs.quiet
  rcases h with ⟨g, tbl, rfl, hs, hown⟩ | ⟨g, tbl, b0, rfl, hs, hown, hd⟩
  . have hspec := destroyStanding_spec untroubled_telling hs (@Standing.blobs_only b top)
    refine (@Spec.maintaining _ _ _ _ _ H _ _ _ _ hI hspec fun s _ hu => hcalm s hu).conseq ?_ ?_ ?_ ?_
    . exact fun s hs => ⟨⟨hs.1, hs.2.ids.ge⟩, hs.2⟩
    . rintro _ s ⟨⟨hp, hroot⟩, hu⟩
      exact ⟨Cleared.of_partly hs hp hroot hown fun _ _ => rfl, hu⟩
    . rintro e s ⟨⟨-, ht | hlong⟩, hu⟩
      . exact absurd ht hu.quiet
      . have hfits := (hs.rootOk (.inl rfl)).fits
        omega
    . rintro s ⟨⟨hb, -⟩ | hdoomed, hu⟩
      . exact ⟨.inl hb, hu⟩
      . refine ⟨.inr ⟨⟨g, tbl, b, rfl, hs, hown, hdoomed⟩, fun id hno => ?_⟩, hu⟩
        exact hdoomed.partly.rest id fun r hr => hno ((hown id).mpr ⟨r, hr⟩)
  . have hrest : ∀ {b' : Blobs}, Partly g tbl b0 b' → ∀ id, ¬ own id → b' id = b0 id := by
      intro b' hp id hno
      exact hp.rest id fun r hr => hno ((hown id).mpr ⟨r, hr⟩)
    have hb := hrest hd.partly
    rcases hd.root with hdying | hnone
    . have hspec := destroyDying_spec untroubled_telling hs
      refine (@Spec.maintaining _ _ _ _ _ H _ _ _ _ hI hspec fun s _ hu => hcalm s hu).conseq ?_ ?_ ?_ ?_
      . rintro s ⟨rfl, hu⟩
        exact ⟨⟨hd.partly, hdying, nofun, List.nil_prefix, List.nil_prefix⟩, hu⟩
      . rintro _ s ⟨⟨hp, hroot⟩, hu⟩
        exact ⟨Cleared.of_partly hs hp hroot hown hb, hu⟩
      . rintro e s ⟨⟨-, ht⟩, hu⟩
        exact absurd ht hu.quiet
      . rintro s ⟨hdoomed, hu⟩
        refine ⟨.inr ⟨⟨g, tbl, b0, rfl, hs, hown, hdoomed⟩, fun id hno => ?_⟩, hu⟩
        rw [hb id hno]
        exact hrest hdoomed.partly id hno
    . have hspec := (@destroyGone_spec kcfg _ g b) untroubled_telling
      refine (@Spec.maintaining _ _ _ _ _ H _ _ _ _ hI hspec fun s _ hu => hcalm s hu).conseq ?_ ?_ ?_ ?_
      . exact fun s hs => ⟨⟨hs.1, hnone⟩, hs.2⟩
      . exact fun _ _ h => h.1.elim
      . rintro e s ⟨⟨hsb, rfl | ht⟩, hu⟩
        . exact ⟨⟨rfl, hsb, Cleared.of_partly hs hd.partly hnone hown hb⟩, hu⟩
        . exact absurd ht hu.quiet
      . exact fun _ h => h.1.elim

/-! What a look at the map says -/

-- A reading call whose end is known where no read fails.
theorem Spec.looking {α : Type} {x : K α} {Q : Post (World KvRam) Errno α} (hx : Looks x)
    (hq : Spec Containers.untroubled (fun s => s.blobs = b ∧ s.top = top) x Q) :
    Spec H (fun s => s.blobs = b ∧ Unfailing cfg cap top s) x
      ⟨fun a s => Q.ok a s ∧ s.blobs = b ∧ Unfailing cfg cap top s,
        fun e s => Q.err e s ∧ s.blobs = b ∧ Unfailing cfg cap top s,
        fun s => Q.cut s ∧ s.blobs = b ∧ Unfailing cfg cap top s⟩ := by
  have hI : ∀ s : World KvRam, s.blobs = b ∧ Unfailing cfg cap top s → untroubled.holds s :=
    fun s hs => hs.2.quiet
  refine (@Spec.maintaining _ _ _ _ _ H _ _ _ _ hI hq ?_).pre fun s hs => ⟨⟨hs.1, hs.2.ids⟩, hs⟩
  intro s _ hs
  obtain ⟨r, hr⟩ := hx.run hs.2.reads
  rw [hr]
  exact ⟨hs.1, hs.2.setRam r⟩

theorem kvhashStat_whole (h : MapWhole kcfg root own b top) :
    Spec H (fun s => s.blobs = b ∧ Unfailing cfg cap top s) (kvhashStat kcfg root)
      ⟨fun _ s => s.blobs = b ∧ Unfailing cfg cap top s, fun _ _ => False, fun _ => False⟩ := by
  obtain ⟨g, tbl, rfl, hs, -⟩ := h
  have hspec : Spec untroubled (fun s => s.blobs = b ∧ s.top = top) (kvhashStat kcfg g.root)
      ⟨fun _ _ => True, fun _ s => Trouble s.history, fun _ => False⟩ := by
    intro t ht hh
    have hstat := ((@kvhashStat_spec _ _ _ _ _ _ (t.ram.keyInlineMax, t.ram.valInlineMax) [] []) untroubled_telling hs).conseq (R := ⟨fun _ _ => True,
        fun _ s => Trouble s.history, fun _ => False⟩) (fun _ h => h) (fun _ _ _ => trivial)
      (fun _ _ he => he.2.read.trouble) fun _ hf => hf
    exact hstat t ⟨ht.1, ht.2, rfl, List.nil_prefix, List.nil_prefix⟩ hh
  exact (Spec.looking kvhashStat_views.looks hspec).conseq (fun _ h => h) (fun _ _ h => h.2)
    (fun _ _ h => h.2.2.quiet h.1) fun _ h => h.1

theorem kvhashStat_going (h : MapGoing kcfg root own b top) :
    Spec H (fun s => s.blobs = b ∧ Unfailing cfg cap top s) (kvhashStat kcfg root)
      (.stops fun e s => e = Errno.ENOENT ∧ s.blobs = b ∧ Unfailing cfg cap top s) := by
  obtain ⟨g, tbl, b0, rfl, hs, -, hd⟩ := h
  have hspec : Spec untroubled (fun s => s.blobs = b ∧ s.top = top) (kvhashStat kcfg g.root)
      (.stops fun e s => e = Errno.ENOENT ∨ Trouble s.history) := by
    intro t ht hh
    have hload : Spec untroubled (Sees b top (t.ram.keyInlineMax, t.ram.valInlineMax) [] [])
        (dirLoad kcfg g.root) (.stops fun e s => e = Errno.ENOENT ∨ Trouble s.history) := by
      intro s hs' hh'
      have hdoomed := (@dirLoadDoomed_spec _ _ _ _ _ _ hs hd top
        (t.ram.keyInlineMax, t.ram.valInlineMax)).conseq
        (R := .stops fun e s => e = Errno.ENOENT ∨ Trouble s.history) (fun _ h => h)
        (fun _ _ h => h) (fun e s he => he.2.imp_right ReadFailed.trouble) fun _ h => h
      exact hdoomed s hs' (untroubled_telling _ hh')
    exact Spec.stop _ hload t ⟨ht.1, ht.2, rfl, List.nil_prefix, List.nil_prefix⟩ hh
  refine (Spec.looking kvhashStat_views.looks hspec).conseq (fun _ h => h) (fun _ _ h => h.1) ?_
    fun _ h => h.1
  rintro e s ⟨he, hb, hu⟩
  exact ⟨he.resolve_right hu.quiet, hb, hu⟩

end KeyValueDb.Containers
