import KeyValueDb.Containers.KvhashDestroy

/-!
Destroying a map over and over. Whatever stops a destroy, the next one goes on where it was stopped,
until nothing of the map is left, and to everybody else the map is gone from the first write on.
-/

namespace KeyValueDb.Containers

/-! The blobs of a map -/

def mapSubs (cfg : KvCfg) (b : Blobs) (root : Nat) : List Nat :=
  match dirAt cfg b root with
  | none => []
  | some (buf, d) => if d.depth = 1 then [] else (List.range d.n).map (dirChild buf)

-- Every id that the root leads to.
def mapIds (cfg : KvCfg) (b : Blobs) (root : Nat) : List Nat :=
  (root :: mapSubs cfg b root ++
    ((mapLeaves cfg b root).flatMap fun x => (List.range x.2.n).map (dirChild x.1)) ++
    (mapEntries cfg b root).flatMap fun x => entIds x.1 x.2).filter (· ≠ 0)

variable {cfg : KvCfg} {g : Shape} {tbl : Table} {b b0 : Blobs} {top root : Nat} {w : World KvRam}

theorem Stored.mem_subs (h : Stored cfg g tbl b top) {id : Nat} :
    id ∈ mapSubs cfg b g.root ↔ g.depth = 2 ∧ ∃ t < g.fan, id = tbl.leaf t := by
  rcases h.shape.levels with ⟨hd, hfan⟩ | ⟨hd, _⟩
  . have hdir := h.leaf_dir 0 h.shape.fan_pos
    rw [h.one_level hd] at hdir
    rw [mapSubs, dirAt_image h.leafOk hdir]
    simp [hd]
  . rw [mapSubs, dirAt_image (h.topOk hd) (h.top_dir hd)]
    simp only [OfNat.ofNat_ne_one, if_false, List.mem_map, List.mem_range]
    constructor
    . rintro ⟨t, ht, rfl⟩
      exact ⟨hd, t, ht, dirChild_whole ht (h.leaf_lt ht)⟩
    . rintro ⟨_, t, ht, rfl⟩
      exact ⟨t, ht, dirChild_whole ht (h.leaf_lt ht)⟩

theorem Stored.mem_bids (h : Stored cfg g tbl b top) {id : Nat} :
    id ∈ ((mapLeaves cfg b g.root).flatMap fun x => (List.range x.2.n).map (dirChild x.1)) ↔
      ∃ c, g.In c ∧ id = tbl.bid c := by
  rw [h.leaves SameFrame.refl]
  simp only [List.mem_flatMap, List.mem_map, List.mem_range]
  constructor
  . rintro ⟨_, ⟨t, ht, rfl⟩, i, hi, rfl⟩
    exact ⟨(t, i), ⟨ht, hi⟩, dirChild_whole hi (h.bid_lt ⟨ht, hi⟩)⟩
  . rintro ⟨⟨t, i⟩, ⟨ht, hi⟩, rfl⟩
    exact ⟨_, ⟨t, ht, rfl⟩, i, hi, dirChild_whole hi (h.bid_lt ⟨ht, hi⟩)⟩

theorem Stored.mem_parts (h : Stored cfg g tbl b top) {id : Nat} :
    id ∈ ((mapEntries cfg b g.root).flatMap fun x => entIds x.1 x.2) ↔
      ∃ c, g.In c ∧ ∃ p ∈ tbl.pairs c, id = p.kid ∨ id = p.vid := by
  have hmap : (mapEntries cfg b g.root).map (fun x => entIds x.1 x.2) =
      (treePairs g tbl g.fan 0).map fun p => [p.kid, p.vid] := by
    refine h.entries_map SameFrame.refl fun c hc p hp off hs => ?_
    have hfits := (h.sound c hc p hp).toFits
    rw [entIds, hs.keyId hfits, hs.valId hfits]
  rw [List.flatMap_def, hmap, ← List.flatMap_def]
  simp only [List.mem_flatMap, mem_treePairs, List.mem_cons, List.not_mem_nil, or_false]
  constructor
  . rintro ⟨p, ⟨c, hc, hp⟩, hid⟩
    exact ⟨c, hc, p, hp, hid⟩
  . rintro ⟨c, hc, p, hp, hid⟩
    exact ⟨p, ⟨c, hc, hp⟩, hid⟩

-- The blobs of a stored table are the ones that its root leads to.
theorem Stored.mem_ids (h : Stored cfg g tbl b top) {id : Nat} :
    id ∈ mapIds cfg b g.root ↔ ∃ r, tbl.Owns g r id := by
  simp only [mapIds, List.mem_filter, List.mem_append, List.mem_cons, h.mem_subs, h.mem_bids,
    h.mem_parts, decide_eq_true_eq]
  constructor
  . rintro ⟨((rfl | ⟨_, t, ht, rfl⟩) | ⟨c, hc, rfl⟩) | ⟨c, hc, p, hp, rfl | rfl⟩, h0⟩
    . obtain ⟨r, ho, _⟩ := h.owns_root
      exact ⟨r, ho⟩
    . exact ⟨_, .leaf ht⟩
    . exact ⟨_, .bucket hc h0⟩
    . exact ⟨_, .key hc hp h0⟩
    . exact ⟨_, .val hc hp h0⟩
  . rintro ⟨r, ho⟩
    refine ⟨?_, by have := h.ids r id ho; omega⟩
    cases ho with
    | root hd => exact .inl (.inl (.inl rfl))
    | @leaf t ht =>
      rcases h.shape.levels with ⟨hd, _⟩ | ⟨hd, _⟩
      . obtain rfl : t = 0 := by omega
        exact .inl (.inl (.inl (h.one_level hd)))
      . exact .inl (.inl (.inr ⟨hd, t, ht, rfl⟩))
    | bucket hc hbid => exact .inl (.inr ⟨_, hc, rfl⟩)
    | key hc hp hk => exact .inr ⟨_, hc, _, hp, .inl rfl⟩
    | val hc hp hv => exact .inr ⟨_, hc, _, hp, .inr rfl⟩

/-! Attempts -/

-- One call, with what the store does while it runs.
structure DestroyTry where
  turns : List Turn := []
  reads : List (Option Errno) := []

-- How it ended, and what happened in the store.
structure DestroyResult where
  reply : Out Errno Unit
  events : List Event

def World.enterDestroy (w : World KvRam) (a : DestroyTry) : World KvRam :=
  { w with
    turns := a.turns
    reads := a.reads
    history := [] }

def destroyStep (cfg : KvCfg) (root : Nat) (w : World KvRam) (a : DestroyTry) :
    DestroyResult × World KvRam :=
  match kvhashDestroy cfg root (w.enterDestroy a) with
  | (.cut, w') => (⟨.cut, w'.history⟩, w'.setRam (KvRam.boot cfg))
  | (r, w') => (⟨r, w'.history⟩, w')

def runDestroy (cfg : KvCfg) (root : Nat) (w : World KvRam) :
    List DestroyTry → List DestroyResult × World KvRam
  | [] => ([], w)
  | a :: as =>
    let r := destroyStep cfg root w a
    let rest := runDestroy cfg root r.2 as
    (r.1 :: rest.1, rest.2)

def DestroyResult.Telling (r : DestroyResult) : Prop := ∀ ev ∈ r.events, ev.Telling

-- Whether a write of it has been committed.
def DestroyResult.Wrote (r : DestroyResult) : Prop := ∃ ev ∈ r.events, ev.Landed

-- The map as it was, or what a destroy leaves of it.
def Torn (g : Shape) (tbl : Table) (b0 : Blobs) (top : Nat) (s : World KvRam) : Prop :=
  s.blobs = b0 ∧ top ≤ s.top ∨ Doomed g tbl b0 s.blobs

theorem destroyStep_doomed (hs : Stored cfg g tbl b0 top) (a : DestroyTry)
    (h : Doomed g tbl b0 w.blobs) (ht : (destroyStep cfg g.root w a).1.Telling) :
    Doomed g tbl b0 (destroyStep cfg g.root w a).2.blobs ∧
      ((destroyStep cfg g.root w a).1.reply = .ok () →
        (destroyStep cfg g.root w a).2.blobs g.root = none) := by
  have hpost := destroyDoomed_spec (H := telling) (fun _ hw => hw) hs (w.enterDestroy a) h
  simp only [destroyStep] at ht ⊢
  generalize kvhashDestroy cfg g.root (w.enterDestroy a) = r at hpost ht
  obtain ⟨o, s⟩ := r
  cases o with
  | ok u =>
    obtain ⟨hp, hroot⟩ := hpost ht
    exact ⟨⟨hp, .inr hroot⟩, fun _ => hroot⟩
  | err e => exact ⟨(hpost ht).1, nofun⟩
  | cut =>
    have hdoomed : Doomed g tbl b0 s.blobs := hpost ht
    exact ⟨hdoomed, nofun⟩

theorem destroyStep_torn (hs : Stored cfg g tbl b0 top) (a : DestroyTry) (h : Torn g tbl b0 top w)
    (ht : (destroyStep cfg g.root w a).1.Telling) :
    Torn g tbl b0 top (destroyStep cfg g.root w a).2 ∧
      ((destroyStep cfg g.root w a).1.Wrote → Doomed g tbl b0 (destroyStep cfg g.root w a).2.blobs) ∧
      ((destroyStep cfg g.root w a).1.reply = .ok () →
        Doomed g tbl b0 (destroyStep cfg g.root w a).2.blobs ∧
          (destroyStep cfg g.root w a).2.blobs g.root = none) := by
  rcases h with ⟨hb, htop⟩ | hdoomed
  rotate_left
  . obtain ⟨hdoomed', hok⟩ := destroyStep_doomed hs a hdoomed ht
    exact ⟨.inr hdoomed', fun _ => hdoomed', fun h => ⟨hdoomed', hok h⟩⟩
  have hpost := destroyWhole_spec (H := telling) (fun _ hw => hw) hs (w.enterDestroy a)
    ⟨hb, htop, nofun⟩
  have hstage : ∀ {s : World KvRam}, Whole b0 top s ∨ Doomed g tbl b0 s.blobs →
      Torn g tbl b0 top s ∧ ((∃ ev ∈ s.history, ev.Landed) → Doomed g tbl b0 s.blobs) := by
    rintro s (h | h)
    . refine ⟨.inl ⟨h.blobs, h.top_le⟩, ?_⟩
      rintro ⟨ev, hev, hl⟩
      exact absurd hl (h.still ev hev)
    . exact ⟨.inr h, fun _ => h⟩
  simp only [destroyStep] at ht ⊢
  generalize kvhashDestroy cfg g.root (w.enterDestroy a) = r at hpost ht
  obtain ⟨o, s⟩ := r
  cases o with
  | ok u =>
    obtain ⟨hp, hroot⟩ := hpost ht
    have hdoomed : Doomed g tbl b0 s.blobs := ⟨hp, .inr hroot⟩
    exact ⟨.inr hdoomed, fun _ => hdoomed, fun _ => ⟨hdoomed, hroot⟩⟩
  | err e =>
    obtain ⟨htorn, hwrote⟩ := hstage (hpost ht).1
    exact ⟨htorn, hwrote, nofun⟩
  | cut =>
    obtain ⟨htorn, hwrote⟩ := hstage (hpost ht)
    exact ⟨htorn, hwrote, nofun⟩

theorem destroyStep_gone (a : DestroyTry) (h : w.blobs root = none)
    (ht : (destroyStep cfg root w a).1.Telling) :
    (destroyStep cfg root w a).2.blobs = w.blobs := by
  have hpost := (@destroyGone_spec cfg telling ⟨root, 0, 0, 0, 0⟩)
    (fun _ hw => hw) (w.enterDestroy a) ⟨rfl, h⟩
  simp only [destroyStep] at ht ⊢
  generalize kvhashDestroy cfg root (w.enterDestroy a) = r at hpost ht
  obtain ⟨o, s⟩ := r
  cases o with
  | ok u => exact (hpost ht).elim
  | err e => exact (hpost ht).1
  | cut => exact (hpost ht).elim

theorem runDestroy_doomed (hs : Stored cfg g tbl b0 top) (as : List DestroyTry)
    (h : Doomed g tbl b0 w.blobs) (ht : ∀ r ∈ (runDestroy cfg g.root w as).1, r.Telling) :
    Doomed g tbl b0 (runDestroy cfg g.root w as).2.blobs ∧
      (w.blobs g.root = none ∨ (∃ r ∈ (runDestroy cfg g.root w as).1, r.reply = .ok ()) →
        (runDestroy cfg g.root w as).2.blobs g.root = none) := by
  induction as generalizing w with
  | nil =>
    refine ⟨h, ?_⟩
    rintro (hnone | ⟨r, hr, _⟩)
    . exact hnone
    . cases hr
  | cons a as ih =>
    have hfirst := ht _ List.mem_cons_self
    obtain ⟨hdoomed, hok⟩ := destroyStep_doomed hs a h hfirst
    obtain ⟨hend, hroot⟩ := ih hdoomed fun r hr => ht r (List.mem_cons_of_mem _ hr)
    refine ⟨hend, ?_⟩
    rintro (hnone | ⟨r, hr, hreply⟩)
    . exact hroot (.inl (by rw [destroyStep_gone a hnone hfirst, hnone]))
    . rcases List.mem_cons.mp hr with rfl | hr
      . exact hroot (.inl (hok hreply))
      . exact hroot (.inr ⟨r, hr, hreply⟩)

theorem runDestroy_torn (hs : Stored cfg g tbl b0 top) (as : List DestroyTry)
    (h : Torn g tbl b0 top w) (ht : ∀ r ∈ (runDestroy cfg g.root w as).1, r.Telling) :
    Torn g tbl b0 top (runDestroy cfg g.root w as).2 ∧
      ((∃ r ∈ (runDestroy cfg g.root w as).1, r.Wrote) →
        Doomed g tbl b0 (runDestroy cfg g.root w as).2.blobs) ∧
      ((∃ r ∈ (runDestroy cfg g.root w as).1, r.reply = .ok ()) →
        Doomed g tbl b0 (runDestroy cfg g.root w as).2.blobs ∧
          (runDestroy cfg g.root w as).2.blobs g.root = none) := by
  induction as generalizing w with
  | nil => exact ⟨h, nofun, nofun⟩
  | cons a as ih =>
    obtain ⟨htorn, hwrote, hok⟩ := destroyStep_torn hs a h (ht _ List.mem_cons_self)
    have hrest : ∀ r ∈ (runDestroy cfg g.root (destroyStep cfg g.root w a).2 as).1, r.Telling :=
      fun r hr => ht r (List.mem_cons_of_mem _ hr)
    obtain ⟨hend, hwrote', hok'⟩ := ih htorn hrest
    refine ⟨hend, ?_, ?_⟩
    . rintro ⟨r, hr, hw⟩
      rcases List.mem_cons.mp hr with rfl | hr
      . exact (runDestroy_doomed hs as (hwrote hw) hrest).1
      . exact hwrote' ⟨r, hr, hw⟩
    . rintro ⟨r, hr, hreply⟩
      rcases List.mem_cons.mp hr with rfl | hr
      . obtain ⟨hdoomed, hnone⟩ := hok hreply
        obtain ⟨hend, hroot⟩ := runDestroy_doomed hs as hdoomed hrest
        exact ⟨hend, hroot (.inl hnone)⟩
      . exact hok' ⟨r, hr, hreply⟩

/-! What the others see of a map that is going -/

-- The call is one of the map's, and not refused for its arguments before the map is looked at.
def KvOp.Accepted : KvOp → Prop
  | .get key _ => key.length ≠ 0 ∧ key.length ≤ 0xffff
  | .set key val => key.length ≠ 0 ∧ key.length ≤ entLenMask ∧ val.length ≤ entLenMask
  | .del key => key.length ≠ 0 ∧ key.length ≤ 0xffff
  | .next cursor _ _ => cursor.length ≤ 0xffff
  | .count => True
  | .stat => True
  | .setInlineMax _ _ => False
  | .powerOff => False

-- A load finds a root that is going, or none.
theorem dirLoadDoomed_spec (hs : Stored cfg g tbl b0 top) (h : Doomed g tbl b0 b)
    {top' : Nat} {lim : Nat × Nat} :
    Spec telling (Sees b top' lim [] []) (dirLoad cfg g.root)
      (.stops fun e s => s.blobs = b ∧ (e = Errno.ENOENT ∨ ReadFailed s.history)) := by
  rcases h.root with hdying | hnone
  . rw [hs.rootImage_eq] at hdying
    refine Spec.reads (dirLoadRaw_spec (fun _ hw => hw) (hs.rootOk (.inr rfl)) hdying) ?_
      fun e s hs he => ⟨hs.blobs, .inr he.read⟩
    rintro _ rfl
    exact Spec.fail fun s hs => ⟨hs.blobs, .inl rfl⟩
  . have hno : ∀ (s : World KvRam) (d : List UInt8), s.blobs = b → s.blobs g.root ≠ some d := by
      intro s d hb hd
      rw [hb, hnone] at hd
      cases hd
    have hget : Spec telling (Sees b top' lim [] []) (blobDbGet g.root cfg.maxPayload)
        (.stops fun e s => s.blobs = b ∧ (e = Errno.ENOENT ∨ ReadFailed s.history)) := by
      refine Spec.blobDbGet ?_ ?_ ?_ ?_
      . exact fun s d h hd => absurd hd (hno s d h.blobs)
      . exact fun s h _ => ⟨h.blobs, .inl rfl⟩
      . exact fun s d h hd => absurd hd (hno s d h.blobs)
      . exact fun s e h hh => ⟨h.blobs, .inr (failing_read (fun _ hw => hw) hh).read⟩
    exact Spec.stop _ (Spec.stop _ (Spec.stop _ hget))

theorem dirLoad_doomed (hs : Stored cfg g tbl b0 top) (h : Doomed g tbl b0 w.blobs)
    (hr : w.reads = []) (hh : w.history = []) :
    ∃ s, dirLoad cfg g.root w = (.err Errno.ENOENT, s) ∧ s.blobs = w.blobs := by
  have hpost := dirLoadDoomed_spec hs h w (sees_self w)
  have hviews : Views (dirLoad cfg g.root) := dirLoad_views _
  have hsilent := (hviews.silent w hr).2
  generalize dirLoad cfg g.root w = r at hpost hsilent
  obtain ⟨o, s⟩ := r
  simp only [hh] at hsilent
  have htell : telling.holds s := by
    intro ev hev
    rw [hsilent] at hev
    cases hev
  cases o with
  | ok d => exact (hpost htell).elim
  | cut => exact (hpost htell).elim
  | err e =>
    obtain ⟨hb, rfl | ⟨id, err, hmem⟩⟩ := hpost htell
    . exact ⟨s, rfl, hb⟩
    . rw [hsilent] at hmem
      cases hmem

-- To everybody else there is no map.
theorem kvStep_doomed (hs : Stored cfg g tbl b0 top) (h : Doomed g tbl b0 w.blobs) {c : KvCall}
    (hop : c.op.Accepted) (hr : c.reads = []) :
    (kvStep cfg g.root w c).1.reply = .err Errno.ENOENT ∧
      (kvStep cfg g.root w c).2.blobs = w.blobs := by
  obtain ⟨s, hload, hb⟩ := dirLoad_doomed (w := w.enterKv c) hs h hr rfl
  have hrun : ∃ s, c.op.run cfg g.root (w.enterKv c) = (.err Errno.ENOENT, s) ∧ s.blobs = w.blobs := by
    cases hc : c.op with
    | get key outSz =>
      rw [hc] at hop
      have hlen : ¬ (key.length = 0 ∨ 0xffff < key.length) := by
        have := hop.1
        have := hop.2
        omega
      by_cases hlong : entLenMask < key.length
      . refine ⟨w.enterKv c, Proc.bind_err ?_, rfl⟩
        rw [kvhashGet, if_neg hlen, if_pos hlong]
        rfl
      . refine ⟨s, Proc.bind_err ?_, hb⟩
        rw [kvhashGet, if_neg hlen, if_neg hlong]
        exact Proc.bind_err (Proc.bind_err hload)
    | set key val =>
      rw [hc] at hop
      have hlen : ¬ (key.length = 0 ∨ 0xffff < key.length ∨ 0xffff < val.length) := by
        have h1 := hop.1
        have h2 := hop.2.1
        have h3 := hop.2.2
        simp only [entLenMask] at h2 h3
        omega
      have hfits : ¬ (entLenMask < key.length ∨ entLenMask < val.length) := by
        have h2 := hop.2.1
        have h3 := hop.2.2
        omega
      refine ⟨s, Proc.bind_err ?_, hb⟩
      rw [kvhashSet, if_neg hlen, if_neg hfits]
      exact Proc.bind_err (Proc.bind_err hload)
    | del key =>
      rw [hc] at hop
      have hlen : ¬ (key.length = 0 ∨ 0xffff < key.length) := by
        have := hop.1
        have := hop.2
        omega
      by_cases hlong : entLenMask < key.length
      . refine ⟨w.enterKv c, Proc.bind_err ?_, rfl⟩
        rw [kvhashDel, if_neg hlen, if_pos hlong]
        rfl
      . refine ⟨s, Proc.bind_err ?_, hb⟩
        rw [kvhashDel, if_neg hlen, if_neg hlong]
        exact Proc.bind_err (Proc.bind_err hload)
    | next cursor koutSz voutSz =>
      rw [hc] at hop
      refine ⟨s, Proc.bind_err ?_, hb⟩
      rw [kvhashNext, if_neg (Nat.not_lt.mpr hop)]
      exact Proc.bind_err hload
    | count => exact ⟨s, Proc.bind_err (Proc.bind_err hload), hb⟩
    | stat => exact ⟨s, Proc.bind_err (Proc.bind_err hload), hb⟩
    | setInlineMax keyMax valMax => exact absurd hop (by rw [hc]; exact id)
    | powerOff => exact absurd hop (by rw [hc]; exact id)
  obtain ⟨s, hrun, hb⟩ := hrun
  rw [kvStep, hrun]
  exact ⟨rfl, hb⟩

/-! The life and the end of a map -/

-- A root that cannot be loaded cannot be destroyed.
theorem destroyStep_oversized (h : Oversized cfg root w.blobs) (a : DestroyTry) :
    (destroyStep cfg root w a).2.blobs = w.blobs ∧ ¬ (destroyStep cfg root w a).1.Wrote ∧
      (destroyStep cfg root w a).1.reply ≠ .ok () := by
  obtain ⟨data, hdata, hlong⟩ := h
  have hget : Spec (σ := World KvRam) ⟨fun _ => True, fun _ _ => trivial⟩
      (fun s => s.blobs = w.blobs ∧ s.history = []) (blobDbGet root cfg.maxPayload)
      (.stops fun _ s => s.blobs = w.blobs ∧ ∀ ev ∈ s.history, ¬ ev.Landed) := by
    refine Spec.blobDbGet ?_ ?_ ?_ ?_
    . intro s d h hd hlen
      rw [h.1, hdata] at hd
      cases hd
      exact absurd hlong (Nat.not_lt.mpr hlen)
    . intro s h hd
      rw [h.1, hdata] at hd
      cases hd
    . intro s d h _ _
      refine ⟨h.1, fun ev hev => ?_⟩
      rw [World.readDone, h.2] at hev
      cases hev
    . intro s e h _
      refine ⟨h.1, fun ev hev => ?_⟩
      rw [World.readFailed, h.2, List.mem_singleton] at hev
      rw [hev]
      exact id
  have hdestroy : Spec _ _ (kvhashDestroy cfg root) _ := Spec.stop _ (Spec.stop _ (Spec.stop _ hget))
  have hpost := hdestroy (w.enterDestroy a) ⟨rfl, rfl⟩ trivial
  simp only [destroyStep, DestroyResult.Wrote]
  generalize kvhashDestroy cfg root (w.enterDestroy a) = r at hpost
  obtain ⟨o, s⟩ := r
  cases o with
  | ok u => exact hpost.elim
  | cut => exact hpost.elim
  | err e =>
    refine ⟨hpost.1, ?_, by rintro ⟨⟩⟩
    rintro ⟨ev, hev, hl⟩
    exact hpost.2 ev hev hl

theorem runDestroy_oversized (as : List DestroyTry) (h : Oversized cfg root w.blobs) :
    (runDestroy cfg root w as).2.blobs = w.blobs ∧
      ∀ r ∈ (runDestroy cfg root w as).1, ¬ r.Wrote ∧ r.reply ≠ .ok () := by
  induction as generalizing w with
  | nil => exact ⟨rfl, nofun⟩
  | cons a as ih =>
    obtain ⟨hb, hfirst⟩ := destroyStep_oversized h a
    obtain ⟨hend, hrest⟩ := ih (w := (destroyStep cfg root w a).2) (hb.symm ▸ h)
    refine ⟨hend.trans hb, fun r hr => ?_⟩
    rcases List.mem_cons.mp hr with rfl | hr
    . exact hfirst
    . exact hrest r hr

variable {mc : Option MapConfig}

-- However often a destroy is stopped, no other blob is touched, nothing of the map is left once one
-- has returned, and from the first write on the map is not found.
theorem kvhash_destroy_resumes (h : MapMade cfg root mc w) (cs : List KvCall)
    (hp : ∀ r ∈ (lifeOfMap cfg root mc w cs).1, r.Plain) (as : List DestroyTry)
    (ht : ∀ r ∈ (runDestroy cfg root (lifeOfMap cfg root mc w cs).2 as).1, r.Telling) :
    ((∃ r ∈ (runDestroy cfg root (lifeOfMap cfg root mc w cs).2 as).1, r.reply = .ok ()) →
      ∀ id ∈ mapIds cfg (lifeOfMap cfg root mc w cs).2.blobs root,
        (runDestroy cfg root (lifeOfMap cfg root mc w cs).2 as).2.blobs id = none) ∧
    (∀ id, id ∉ mapIds cfg (lifeOfMap cfg root mc w cs).2.blobs root →
      (runDestroy cfg root (lifeOfMap cfg root mc w cs).2 as).2.blobs id =
        (lifeOfMap cfg root mc w cs).2.blobs id) ∧
    ((∃ r ∈ (runDestroy cfg root (lifeOfMap cfg root mc w cs).2 as).1, r.Wrote) →
      ∀ c : KvCall, c.op.Accepted → c.reads = [] →
        (kvStep cfg root (runDestroy cfg root (lifeOfMap cfg root mc w cs).2 as).2 c).1.reply =
          .err Errno.ENOENT ∧
        (kvStep cfg root (runDestroy cfg root (lifeOfMap cfg root mc w cs).2 as).2 c).2.blobs =
          (runDestroy cfg root (lifeOfMap cfg root mc w cs).2 as).2.blobs) := by
  obtain ⟨geo, _, m, _, hkeeps⟩ := lifeOfMap_keeps h cs hp
  generalize (lifeOfMap cfg root mc w cs).2 = w0 at *
  rcases hkeeps with ⟨tbl, hs, _⟩ | ⟨hover, _⟩
  . obtain ⟨htorn, hwrote, hok⟩ := runDestroy_torn hs as (.inl ⟨rfl, le_rfl⟩) ht
    refine ⟨fun hret id hid => ?_, fun id hid => ?_, fun hw c hop hr => ?_⟩
    . obtain ⟨hdoomed, hnone⟩ := hok hret
      obtain ⟨r, ho⟩ := hs.mem_ids.mp hid
      exact hdoomed.partly.gone hs hnone ho
    . rcases htorn with ⟨hb, _⟩ | hdoomed
      . exact congrFun hb id
      . exact hdoomed.partly.rest id fun r ho => hid (hs.mem_ids.mpr ⟨r, ho⟩)
    . exact kvStep_doomed hs (hwrote hw) hop hr
  . obtain ⟨hb, hno⟩ := runDestroy_oversized as hover
    refine ⟨?_, fun id _ => congrFun hb id, ?_⟩
    . rintro ⟨r, hr, hreply⟩
      exact absurd hreply (hno r hr).2
    . rintro ⟨r, hr, hw⟩
      exact absurd hw (hno r hr).1

instance : DecidablePred Event.Landed
  | .edit e => inferInstanceAs (Decidable (e.turn.landed = true))
  | .readError _ _ => .isFalse id

instance (r : DestroyResult) : Decidable r.Wrote :=
  inferInstanceAs (Decidable (∃ ev ∈ r.events, ev.Landed))

instance (r : DestroyResult) : Decidable r.Telling :=
  inferInstanceAs (Decidable (∀ ev ∈ r.events, ev.Telling))

-- The map of `mixedCalls` as it is destroyed: one delete fails, then power is lost, then it goes on.
def smallEnd : List DestroyTry :=
  [⟨[.done, .error Errno.EIO false], []⟩, ⟨[.cut true], []⟩, ⟨[], []⟩]

theorem kvhash_destroy_resumes_mixed :
    (runDestroy smallMap 2 (lifeOfMap smallMap 2 none blankMap mixedCalls).2 smallEnd).1.map
        DestroyResult.reply = [.err Errno.EIO, .cut, .ok ()] ∧
    ((∃ r ∈ (runDestroy smallMap 2 (lifeOfMap smallMap 2 none blankMap mixedCalls).2 smallEnd).1,
        r.reply = .ok ()) →
      ∀ id ∈ mapIds smallMap (lifeOfMap smallMap 2 none blankMap mixedCalls).2.blobs 2,
        (runDestroy smallMap 2 (lifeOfMap smallMap 2 none blankMap mixedCalls).2 smallEnd).2.blobs id =
          none) :=
  ⟨by decide +kernel, (kvhash_destroy_resumes (blankMap_made (by decide +kernel)) mixedCalls
    (by decide +kernel) smallEnd (by decide +kernel)).1⟩

-- A set without a key is refused before the root is looked at.
theorem dying_map_answers_einval :
    (∃ r ∈ (runDestroy smallMap 2 (lifeOfMap smallMap 2 none blankMap mixedCalls).2
        [⟨[.done, .cut false], []⟩]).1, r.Wrote) ∧
      (kvStep smallMap 2 (runDestroy smallMap 2 (lifeOfMap smallMap 2 none blankMap mixedCalls).2
        [⟨[.done, .cut false], []⟩]).2 ⟨.set [] [1], [], [], []⟩).1.reply = .err Errno.EINVAL := by
  decide +kernel

end KeyValueDb.Containers
