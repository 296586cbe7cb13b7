import KeyValueDb.Containers.LogringSteps

/-!
What each procedure of the log does to a log that is in order, whatever updates and deletes fail and
wherever power is lost.
-/

namespace KeyValueDb.Containers

abbrev LogWorld := World (Option Logring)

variable {cfg : LogCfg}

/-! Reading -/

-- What reading an entry hands over.
def EntryPost (cfg : LogCfg) (t : LogWorld) (id : Nat) (outSz : Option Nat) :
    Post LogWorld Errno (Nat × List UInt8) where
  ok a s := t.Reread s ∧ entryNode cfg t.blobs id = some (a.2, a.1) ∧ outSz.any (· < a.2.length) = false
  err e s := t.Reread s ∧
    (e = Errno.ENOENT ∧ t.blobs id = none ∨ e ≠ Errno.ENOENT ∧ t.blobs id ≠ none ∧
      (entryNode cfg t.blobs id = none ∨ e = Errno.EMSGSIZE ∧
        ∃ a, entryNode cfg t.blobs id = some a ∧ outSz.any (· < a.1.length) = true))
  cut _ := False

theorem entryRead_spec (t : LogWorld) (id : Nat) (outSz : Option Nat) :
    Spec faithful t.Reread (entryRead cfg id outSz) (EntryPost cfg t id outSz) := by
  have hget : Spec faithful t.Reread (blobDbGet id cfg.maxPayload : L (List UInt8))
      ⟨fun buf s => t.Reread s ∧ t.blobs id = some buf ∧ buf.length ≤ cfg.maxPayload,
        (EntryPost cfg t id outSz).err, fun _ => False⟩ := by
    apply Spec.blobDbGet
    . intro s data hp hb hlen
      exact ⟨hp.readDone, hp.blobs ▸ hb, hlen⟩
    . intro s hp hb
      exact ⟨hp.readDone, .inl ⟨rfl, hp.blobs ▸ hb⟩⟩
    . intro s data hp hb hlen
      rw [hp.blobs] at hb
      refine ⟨hp.readDone, .inr ⟨by rintro ⟨⟩, by simp [hb], .inl ?_⟩⟩
      simp only [entryNode, hb]
      rw [if_neg (by omega)]
    . intro s e hp hh
      exact (hh _ List.mem_cons_self).elim
  refine hget.bind (fun buf => ?_) (fun _ _ h => h) (fun _ h => h)
  refine Spec.assuming (φ := t.blobs id = some buf ∧ buf.length ≤ cfg.maxPayload)
    (fun s hs => hs.2) fun hbuf => ?_
  have hnode : ∀ e, decodeEntry buf = .ok e → entryNode cfg t.blobs id = some (e.2, e.1) := by
    intro e he
    simp only [entryNode, hbuf.1, he]
    rw [if_pos hbuf.2]
  refine Spec.ofExcept_bind ?_ ?_
  . intro e he s hs
    have hne : e ≠ Errno.ENOENT := by
      rintro rfl
      unfold decodeEntry at he
      split at he
      . cases he
      . split at he <;> cases he
    refine ⟨hs.1, .inr ⟨hne, by simp [hbuf.1], .inl ?_⟩⟩
    simp only [entryNode, hbuf.1, he]
    split <;> rfl
  . intro e he
    refine Spec.ite ?_ ?_
    . intro hany
      exact Spec.fail fun s hs =>
        ⟨hs.1, .inr ⟨by rintro ⟨⟩, by simp [hbuf.1], .inr ⟨rfl, (e.2, e.1), hnode e he, hany⟩⟩⟩
    . intro hany
      exact Spec.ret fun s hs => ⟨hs.1, hnode e he, by simpa using hany⟩

theorem rootLoad_spec {t : LogWorld} {root : Nat} {r : ClogRoot}
    (hb : t.blobs root = some (rootImage r)) (hr : r.Fits) :
    Spec faithful t.Reread (rootLoad root)
      ⟨fun a s => t.Reread s ∧ a = r, fun _ _ => False, fun _ => False⟩ := by
  have hget : Spec faithful t.Reread (blobDbGet root clogRootLen : L (List UInt8))
      ⟨fun buf s => t.Reread s ∧ buf = rootImage r, fun _ _ => False, fun _ => False⟩ := by
    apply Spec.blobDbGet
    . intro s data hp hs _
      rw [hp.blobs, hb] at hs
      cases hs
      exact ⟨hp.readDone, rfl⟩
    . intro s hp hs
      rw [hp.blobs, hb] at hs
      cases hs
    . intro s data hp hs hlen
      rw [hp.blobs, hb] at hs
      cases hs
      simp at hlen
    . intro s e hp hh
      exact (hh _ List.mem_cons_self).elim
  refine hget.attempt.bind ?_ (fun _ _ h => h.elim) (fun _ h => h)
  intro res
  cases res with
  | error e => exact fun s hs => hs.elim
  | ok buf =>
    refine Spec.assuming (φ := buf = rootImage r) (fun s hs => hs.2) fun hbuf => ?_
    simp only [hbuf, decodeRoot_rootImage hr]
    exact Spec.ret fun s hs => ⟨hs.1, rfl⟩

/-! Deleting a run -/

-- Ids reserved past the end of the log.
def Reserved (v : LogView) (res : List Nat) (top : Nat) (b : Blobs) : Prop :=
  ∀ i ∈ res, v.frontier < i ∧ i ≤ top ∧ b i = none

-- The log on flash, the RAM, and the reserved ids.
def Held (cfg : LogCfg) (g : LogId) (v : LogView) (run : List LogEntry) (r : ClogRoot)
    (ram : Option Logring) (res : List Nat) (w : LogWorld) : Prop :=
  OnFlash cfg g v run r w.blobs w.top w.used w.history ∧ w.ram = ram ∧
    Reserved v res w.top w.blobs

def Durable (cfg : LogCfg) (g : LogId) (v : LogView) (w : LogWorld) : Prop :=
  ∃ run r, OnFlash cfg g v run r w.blobs w.top w.used w.history

variable {g : LogId} {u v d : LogView} {run : List LogEntry} {r : ClogRoot}
variable {ram : Option Logring} {res : List Nat} {h : Logring} {n : Nat}

theorem collectRun_spec {t : LogWorld} {stop last : Nat} :
    ∀ (n cur : Nat) (run : List LogEntry), Segment (entryNode cfg t.blobs) cur run last →
      (last = stop ∨ t.blobs last = none) → (∀ e ∈ run, e.1 ≠ stop) → run.length ≤ n →
      Spec faithful t.Reread (collectRun cfg n cur stop)
        ⟨fun a s => t.Reread s ∧ a = run.map Prod.fst, fun _ _ => False, fun _ => False⟩ := by
  intro n
  induction n with
  | zero =>
    intro cur run _ _ _ hlen
    have : run = [] := List.length_eq_zero_iff.mp (by omega)
    subst this
    exact Spec.ret fun s hs => ⟨hs, rfl⟩
  | succ n ih =>
    intro cur run hseg hlast hne hlen
    refine Spec.ite ?_ ?_
    . intro hcur
      cases run with
      | nil => exact Spec.ret fun s hs => ⟨hs, rfl⟩
      | cons e run => exact absurd (hseg.1.symm.trans hcur) (hne e List.mem_cons_self)
    . intro hcur
      refine (entryRead_spec t cur none).attempt.bind ?_ (fun _ _ h => h.elim) (fun _ h => h)
      intro res
      cases run with
      | nil =>
        -- the walk has reached the first deleted entry
        have hnone : t.blobs cur = none := by
          rcases hlast with hl | hl
          . exact absurd (hseg.trans hl) hcur
          . exact hseg ▸ hl
        cases res with
        | error e => exact Spec.ret fun s hs => ⟨hs.1, rfl⟩
        | ok a =>
          intro s hs
          exact absurd hnone (entryNode_bound hs.2.1)
      | cons e run =>
        obtain ⟨rfl, nxt, hnode, hlt, hrest⟩ := hseg
        cases res with
        | error er =>
          intro s hs
          rcases hs.2 with ⟨_, hb⟩ | ⟨_, _, hn | ⟨_, _, _, hany⟩⟩
          . exact absurd hb (entryNode_bound hnode)
          . rw [hnode] at hn
            cases hn
          . cases hany
        | ok a =>
          refine Spec.assuming (φ := a.1 = nxt) ?_ fun ha => ?_
          . intro s hs
            have := hs.2.1
            rw [hnode] at this
            simp only [Option.some.injEq, Prod.mk.injEq] at this
            exact this.2.symm
          . have hrun := ih nxt run hrest hlast (fun e he => hne e (List.mem_cons_of_mem _ he))
              (by simpa using hlen)
            rw [← ha] at hrun
            refine (hrun.pre fun s hs => hs.1).bind (fun l => ?_) (fun _ _ h => h) (fun _ h => h)
            exact Spec.ret fun s hs => ⟨hs.1, by rw [hs.2]; rfl⟩

-- The run is to be deleted, or could not be.
def Pending (cfg : LogCfg) (g : LogId) (v : LogView) (r : ClogRoot) (ram : Option Logring)
    (res ids : List Nat) (s : LogWorld) : Prop :=
  ∃ run, Held cfg g v run r ram res s ∧
    (Calm s.history → ∀ e ∈ run, e.1 ∈ ids ∨ Undeleted s.history e.1)

theorem Held.later {s s' : LogWorld} (hs : Held cfg g v run r ram res s) (hb : s'.blobs = s.blobs)
    (hused : s'.used = s.used) (htop : s'.top = s.top) (hram : s'.ram = s.ram) (hh : s ≤ s') :
    Held cfg g v run r ram res s' := by
  unfold Held
  rw [hb, hused, htop, hram]
  exact ⟨hs.1.later hh le_rfl hs.1.top_lt, hs.2.1, hs.2.2⟩

-- One of the blobs below the log is gone.
theorem Held.deleted {s : LogWorld} {i : Nat} {ids : List Nat} {t : Turn} (ht : t.landed = true)
    (hs : Held cfg g v run r ram res s) (hi : g.root < i ∧ i < v.first) (hids : ∀ j ∈ ids, j < i)
    (hrun : Calm s.history → ∀ e ∈ run, e.1 ∈ i :: ids ∨ Undeleted s.history e.1) :
    Pending cfg g v r ram res ids (s.edit i none t) := by
  obtain ⟨hf, hram, hres⟩ := hs
  have hb := s.edit_blobs i none ht
  have hgrows : s.history <:+ (s.edit i none t).history := List.suffix_cons _ _
  have htally : Tallied cfg.toStoreCfg (Function.update s.blobs i none)
      (s.edit i none t).used := by
    rw [s.edit_used i none ht]
    exact hf.tallied.delete i
  have hres' : Reserved v res (s.edit i none t).top (s.edit i none t).blobs := by
    intro j hj
    have hj' := hres j hj
    have hle := hf.chain.le
    refine ⟨hj'.1, hj'.2.1, ?_⟩
    rw [hb, Function.update_of_ne (by omega)]
    exact hj'.2.2
  -- what is left of the run is still to be deleted, or could not be
  have hleft : Calm (s.edit i none t).history → ∀ e ∈ run, e.1 ≠ i →
      e.1 ∈ ids ∨ Undeleted (s.edit i none t).history e.1 := by
    intro hc e he hne
    rcases hrun hc.tail e he with hmem | hu
    . rw [List.mem_cons] at hmem
      exact .inl (hmem.resolve_left hne)
    . exact .inr (hu.later hgrows)
  by_cases hmem : ∃ e ∈ run, e.1 = i
  . obtain ⟨e, he, rfl⟩ := hmem
    obtain ⟨pre, post, rfl⟩ := List.append_of_mem he
    -- ids ascend along the run, so what follows the entry was tried before it
    obtain ⟨_, _, stop, hseg, _⟩ := hf.detached.left (hf.detached.mem he).1
    have hasc := hseg.ascending
    rw [List.pairwise_append, List.pairwise_cons] at hasc
    refine ⟨pre, ⟨?_, hram, hres'⟩, ?_⟩
    . rw [hb]
      refine hf.delete_mem htally hgrows ?_
      intro hc c hcpost
      have hlt := hasc.2.1.1 c hcpost
      rcases hleft hc c (by simp [hcpost]) (by omega) with hin | hu
      . have := hids _ hin
        omega
      . exact hu
    . intro hc c hcpre
      have hlt := hasc.2.2 c hcpre e List.mem_cons_self
      exact hleft hc c (by simp [hcpre]) (by omega)
  . have hother : ∀ e ∈ run, e.1 ≠ i := fun e he h => hmem ⟨e, he, h⟩
    refine ⟨run, ⟨?_, hram, hres'⟩, fun hc e he => hleft hc e he (hother e he)⟩
    rw [hb]
    exact hf.delete_other hi.1 hi.2 hother htally hgrows

-- Deleting what can be deleted of the ids below the log, the highest one first.
theorem deleteAll_spec :
    ∀ ids : List Nat, ids.Pairwise (· > ·) → (∀ i ∈ ids, g.root < i ∧ i < v.first) →
      Spec faithful (Pending cfg g v r ram res ids) (deleteAll ids)
        ⟨fun _ => Pending cfg g v r ram res [], fun _ _ => False, Durable cfg g v⟩ := by
  intro ids
  induction ids with
  | nil => exact fun _ _ => Spec.ret fun s hs => hs
  | cons i ids ih =>
    intro hdesc hids
    rw [List.pairwise_cons] at hdesc
    have hi := hids i List.mem_cons_self
    have hrest := ih hdesc.2 fun j hj => hids j (List.mem_cons_of_mem _ hj)
    have hone : Spec faithful (Pending cfg g v r ram res (i :: ids)) (blobDbDelete i)
        (.exits (Pending cfg g v r ram res ids) (Pending cfg g v r ram res ids)
          (Durable cfg g v)) := by
      refine Spec.given fun run => ?_
      apply Spec.blobDbDelete
      . intro s hs _
        exact hs.1.deleted rfl hi hdesc.1 hs.2
      . intro s e landed hs hb hh
        cases landed with
        | true => exact absurd rfl (hh _ List.mem_cons_self e)
        | false =>
          have hle : s ≤ s.edit i none (.error e false) := List.suffix_cons _ _
          refine ⟨run, hs.1.later rfl rfl rfl rfl hle, fun hc c hcrun => ?_⟩
          rcases hs.2 hc.tail c hcrun with hmem | hu
          . rw [List.mem_cons] at hmem
            rcases hmem with hci | hmem
            . exact .inr ⟨_, e, false, List.mem_cons_self, hci.symm, rfl, rfl⟩
            . exact .inl hmem
          . exact .inr (hu.later hle)
      . intro s landed hs hb
        cases landed with
        | true =>
          obtain ⟨run', hheld, _⟩ := hs.1.deleted (t := .cut true) rfl hi hdesc.1 hs.2
          exact ⟨run', r, hheld.1⟩
        | false => exact ⟨run, r, hs.1.1.later (List.suffix_cons _ _) le_rfl hs.1.1.top_lt⟩
      . intro s hs hb
        -- an entry of the run is there
        refine ⟨run, hs.1, fun hc e he => ?_⟩
        rcases hs.2 hc e he with hmem | hu
        . rw [List.mem_cons] at hmem
          rcases hmem with hei | hmem
          . obtain ⟨_, _, stop, hseg, _⟩ := hs.1.1.detached.left (hs.1.1.detached.mem he).1
            obtain ⟨n, hn⟩ := hseg.node_mem he
            exact absurd (hei ▸ hb) (entryNode_bound hn)
          . exact .inl hmem
        . exact .inr hu
    refine hone.attempt.bind ?_ (fun _ _ h => h.elim) (fun _ h => h)
    intro o
    cases o with
    | ok _ => exact hrest
    | error _ => exact hrest

theorem runDelete_spec (hfrom : r.evictFrom ≠ 0) :
    Spec faithful (Held cfg g v run r ram res) (runDelete cfg r.evictFrom r.evictTo)
      ⟨fun _ => Pending cfg g v r ram res [], fun _ _ => False, Durable cfg g v⟩ := by
  refine Spec.assuming (φ := (∀ e ∈ run, g.root < e.1 ∧ e.1 < v.first) ∧
    run.Pairwise fun c d => c.1 < d.1) ?_ fun hrun => ?_
  . intro s hs
    obtain ⟨_, _, stop, hseg, _⟩ := hs.1.detached.left hfrom
    refine ⟨fun e he => ?_, hseg.ascending⟩
    have := hs.1.detached.mem he
    exact ⟨this.2.1, this.2.2.2⟩
  have hcollect : Spec faithful (Held cfg g v run r ram res)
      (collectRun cfg cfg.k r.evictFrom r.evictTo)
      ⟨fun a s => Held cfg g v run r ram res s ∧ a = run.map Prod.fst, fun _ _ => False,
        fun _ => False⟩ := by
    refine Spec.each fun t ht => ?_
    obtain ⟨_, _, stop, hseg, hstop⟩ := ht.1.detached.left hfrom
    have hne : ∀ e ∈ run, e.1 ≠ r.evictTo := fun e he => (ht.1.detached.mem he).2.2.1.ne
    refine (collectRun_spec cfg.k r.evictFrom run hseg (hstop.imp (fun h => h) fun h => h.1) hne
      ht.1.detached.short).conseq (fun _ h => h) ?_ (fun _ _ h => h) (fun _ h => h)
    intro a s hs
    obtain ⟨⟨l, rfl⟩, ha⟩ := hs
    exact ⟨ht, ha⟩
  refine hcollect.bind (fun ids => ?_) (fun _ _ h => h.elim) (fun _ h => h.elim)
  refine Spec.assuming (φ := ids = run.map Prod.fst) (fun s hs => hs.2) fun hids => ?_
  subst hids
  refine (deleteAll_spec _ ?_ ?_).pre ?_
  . rw [List.pairwise_reverse, List.pairwise_map]
    exact hrun.2
  . intro i hi
    rw [List.mem_reverse, List.mem_map] at hi
    obtain ⟨e, he, rfl⟩ := hi
    exact hrun.1 e he
  . intro s hs
    refine ⟨run, hs.1, fun _ e he => .inl ?_⟩
    rw [List.mem_reverse]
    exact List.mem_map_of_mem he

/-! Logs in use -/

structure LiveOn (cfg : LogCfg) (g : LogId) (d v : LogView) (res : List Nat) (b : Blobs)
    (top used : Nat) (hist : List Event) : Prop where
  durable : ∃ run r, OnFlash cfg g d run r b top used hist
  chain : Chained cfg b v
  above : g.root < v.first
  below : v.frontier ≤ top
  ahead : Ahead d v
  in_step : Calm hist → d = v ∧ Clean g.root b v [] hist
  reserved : Reserved v res top b

-- `d` is the log that an open would find, `v` the one the handle goes by.
def Live (cfg : LogCfg) (g : LogId) (d v : LogView) (res : List Nat) (w : LogWorld) : Prop :=
  LiveOn cfg g d v res w.blobs w.top w.used w.history

structure Serves (g : LogId) (h : Logring) (v : LogView) : Prop where
  root : h.root = g.root
  epoch : h.epoch = g.epoch
  capacity : h.capacityBytes = g.capacityBytes
  mirrors : Mirrors h v

def Running (cfg : LogCfg) (g : LogId) (d v : LogView) (res : List Nat) (h : Logring)
    (w : LogWorld) : Prop :=
  Live cfg g d v res w ∧ w.ram = some h ∧ Serves g h v

-- A log whose last eviction is complete is in step.
theorem Pending.live {s : LogWorld} (hs : Pending cfg g v r ram res [] s) :
    Live cfg g v v res s := by
  obtain ⟨run, hs, hrun⟩ := hs
  refine ⟨⟨run, r, hs.1⟩, hs.1.chain, hs.1.above, hs.1.below, .inl ⟨[], rfl, rfl⟩, ?_, hs.2.2⟩
  intro hc
  refine ⟨rfl, fun id hid hb => ?_⟩
  rcases hs.1.clean hc id hid hb with hmem | ⟨rec, hrec⟩ | hu
  . exact .inl hmem
  . exact .inr (.inr ((hrun hc _ hrec).resolve_left List.not_mem_nil))
  . exact .inr (.inr hu)

theorem Pending.ram_eq {s : LogWorld} {ids : List Nat} (hs : Pending cfg g v r ram res ids s) :
    s.ram = ram := by
  obtain ⟨run, hs, _⟩ := hs
  exact hs.2.1

-- Nothing was to be deleted.
theorem Held.pending {s : LogWorld} (hs : Held cfg g v [] r ram res s) :
    Pending cfg g v r ram res [] s :=
  ⟨[], hs, fun _ _ he => absurd he List.not_mem_nil⟩

theorem Live.durable {s : LogWorld} (hs : Live cfg g d v res s) : Durable cfg g d s :=
  LiveOn.durable hs

-- The handle of an open log.
theorem Spec.handle {P : LogWorld → Prop} {Q : Post LogWorld Errno Logring}
    (hp : ∀ s, P s → s.ram = some h) (hq : ∀ s, P s → Q.ok h s) :
    Spec faithful P Containers.handle Q := by
  refine Spec.read_bind fun o => ?_
  refine Spec.assuming (φ := o = some h) (fun s hs => hs.1.symm.trans (hp s hs.2)) fun ho => ?_
  subst ho
  exact Spec.ret fun s hs => hq s hs.2

theorem Spec.setHandle {P : LogWorld → Prop} {Q : Post LogWorld Errno Unit}
    (hq : ∀ s, P s → Q.ok () (s.setRam (some h))) : Spec faithful P (Containers.setHandle h) Q :=
  Spec.putRam hq

/-! Writing the root -/

-- An update or a delete of a blob that was there has reported an error.
def Mishap (hist : List Event) : Prop :=
  ∃ e err landed, Event.edit e ∈ hist ∧ e.turn = .error err landed ∧ e.before e.id ≠ none

-- The handle served `u` and now serves `v`, and the root is to be written for it.
structure Commits (cfg : LogCfg) (g : LogId) (d u v : LogView) (run : List LogEntry) (h : Logring)
    (evictFrom evictTo : Nat) (res : List Nat) (s : LogWorld) : Prop where
  durable : Durable cfg g d s
  was : Calm s.history → d = u
  chain : Chained cfg s.blobs v
  above : g.root < v.first
  below : v.frontier ≤ s.top
  ahead : Ahead d v
  reserved : Reserved v res s.top s.blobs
  ram : s.ram = some h
  serves : Serves g h v
  fits : evictFrom < 2 ^ 64 ∧ evictTo < 2 ^ 64
  detached : Detached cfg g.root s.blobs v run (h.toRoot evictFrom evictTo)
  clean : Calm s.history → Clean g.root s.blobs v run s.history
  idle : Calm s.history → evictFrom = 0 → h.headId ≠ 0 →
    d = v ∧ Clean g.root s.blobs v [] s.history

theorem rootWrite_spec (hcfg : cfg.Valid) {evictFrom evictTo : Nat} :
    Spec faithful (Commits cfg g d u v run h evictFrom evictTo res) (rootWrite cfg h evictFrom evictTo)
      ⟨fun _ => Held cfg g v run (h.toRoot evictFrom evictTo) (some h) res,
        fun _ s => Live cfg g d v res s ∧ s.ram = some h ∧ Mishap s.history ∧
          (Calm s.history → h.headId ≠ 0),
        fun s => ∃ d', Durable cfg g d' s ∧ (Calm s.history → d' = u ∨ d' = v)⟩ := by
  refine Spec.assuming (φ := h.root = g.root) (fun s hs => hs.serves.root) fun hroot => ?_
  unfold rootWrite
  rw [hroot]
  -- the flash after the root was written
  have hwritten : ∀ (s : LogWorld) (t : Turn), t.landed = true →
      Commits cfg g d u v run h evictFrom evictTo res s →
      s.used + (rootImage (h.toRoot evictFrom evictTo)).length ≤
        cfg.partition + s.blobs.size g.root →
      Held cfg g v run (h.toRoot evictFrom evictTo) (some h) res
        (s.edit g.root (some (rootImage (h.toRoot evictFrom evictTo))) t) := by
    intro s t ht hs hfit
    obtain ⟨run0, r0, hf⟩ := hs.durable
    have hle := hs.chain.le
    have habove := hs.above
    have hb := s.edit_blobs g.root (some (rootImage (h.toRoot evictFrom evictTo))) ht
    refine ⟨?_, hs.ram, ?_⟩
    . rw [hb]
      refine hf.rewrite hs.chain hs.above hs.below
        (hs.serves.mirrors.fits hs.chain hs.below hf.top_lt hs.fits.1 hs.fits.2)
        hs.serves.epoch hs.serves.capacity (hs.serves.mirrors.describes hs.chain (by omega) _ _)
        hs.detached ?_ fun hc => (hs.clean hc.tail).later (List.suffix_cons _ _)
      rw [s.edit_used _ _ ht]
      exact hf.tallied.update hfit
    . intro i hi
      have hi' := hs.reserved i hi
      refine ⟨hi'.1, hi'.2.1, ?_⟩
      rw [hb, Function.update_of_ne (by omega)]
      exact hi'.2.2
  apply Spec.blobDbUpdate
  . intro s hs hfit
    exact hwritten s .done rfl hs hfit
  . intro s e landed hs hh
    cases landed with
    | true => exact absurd rfl (hh _ List.mem_cons_self e)
    | false =>
      obtain ⟨run0, r0, hf⟩ := hs.durable
      have hfits := hs.serves.mirrors.fits hs.chain hs.below hf.top_lt hs.fits.1 hs.fits.2
      -- a harmless error is one of a checkpoint that does not evict
      have hidle : Calm (s.edit g.root (some (rootImage (h.toRoot evictFrom evictTo)))
          (.error e false)).history → Calm s.history ∧ evictFrom = 0 ∧ h.headId ≠ 0 := by
        intro hc
        rcases hc _ List.mem_cons_self e false rfl with hn | hn | ⟨data, r', hd, hdec, hhead, hev⟩
        . cases hn
        . exact absurd hn (by simp [hf.root_bound])
        . cases hd
          rw [decodeRoot_rootImage hfits] at hdec
          cases hdec
          exact ⟨Calm.tail hc, hev, hhead⟩
      refine ⟨?_, hs.ram, ⟨_, e, false, List.mem_cons_self, rfl, by simp [hf.root_bound]⟩,
        fun hc => (hidle hc).2.2⟩
      refine ⟨⟨run0, r0, hf.later (List.suffix_cons _ _) le_rfl hf.top_lt⟩, hs.chain, hs.above, hs.below,
        hs.ahead, ?_, hs.reserved⟩
      intro hc
      obtain ⟨hc, hev, hhead⟩ := hidle hc
      obtain ⟨hsame, hclean⟩ := hs.idle hc hev hhead
      exact ⟨hsame, hclean.later (List.suffix_cons _ _)⟩
  . intro s landed hs hfit
    cases landed with
    | true =>
      exact ⟨v, ⟨run, _, (hwritten s (.cut true) rfl hs (hfit rfl)).1⟩, fun _ => .inr rfl⟩
    | false =>
      obtain ⟨run0, r0, hf⟩ := hs.durable
      exact ⟨d, ⟨run0, r0, hf.later (List.suffix_cons _ _) le_rfl hf.top_lt⟩,
        fun hc => .inl (hs.was (Calm.tail hc))⟩
  . intro s hs hbad
    exfalso
    have h1 := hcfg.root_fits
    have h2 := hcfg.single_slot
    have hle := hs.chain.le
    have habove := hs.above
    have hbelow := hs.below
    obtain ⟨run0, r0, hf⟩ := hs.durable
    have hpos := hf.root_pos
    rw [rootImage_length] at hbad
    omega

/-! Checkpoints -/

def recordBytes (es : List LogEntry) : Nat := (es.map fun e => e.2.length).sum

-- How many entries a checkpoint evicts.
structure Evicts (k : Nat) (h : Logring) (force : Bool) (v : LogView) (n : Nat) : Prop where
  small : n = 0 ∨ n < v.entries.length
  le_k : n ≤ k
  idle : force = false → h.liveBytes ≤ h.capacityBytes → n = 0
  enough : force = true ∨ h.capacityBytes < h.liveBytes →
    n = k ∨ v.entries.length ≤ n + 1 ∨
      force = false ∧ h.liveBytes - UInt32.ofNat (recordBytes (v.entries.take n)) ≤ h.capacityBytes

theorem evictLoop_spec {t : LogWorld} {force : Bool} {last : LogEntry} {z : Nat}
    (htail : h.tailId = last.1) :
    ∀ (fuel : Nat) (ev : Evicted) (es : List LogEntry), 0 < ev.cur →
      Segment (entryNode cfg t.blobs) ev.cur (es ++ [last]) z →
      Spec faithful t.Reread (evictLoop cfg h force fuel ev)
        ⟨fun a s => t.Reread s ∧ ∃ m, m ≤ es.length ∧ m ≤ fuel ∧
          a = ⟨startOf ((es ++ [last]).drop m) z, ev.freed + UInt32.ofNat (recordBytes (es.take m)),
            ev.n + m⟩ ∧
          (m = fuel ∨ m = es.length ∨
            0 < m ∧ force = false ∧ h.liveBytes - a.freed ≤ h.capacityBytes),
        fun _ _ => False, fun _ => False⟩ := by
  intro fuel
  induction fuel with
  | zero =>
    intro ev es _ hseg
    refine Spec.ret fun s hs => ⟨hs, 0, Nat.zero_le _, le_rfl, ?_, .inl rfl⟩
    have hcur : startOf (es ++ [last]) z = ev.cur := hseg.start.symm
    simp [recordBytes, hcur]
  | succ fuel ih =>
    intro ev es hpos hseg
    cases es with
    | nil =>
      have hcur : ev.cur = last.1 := hseg.start
      refine Spec.ite (fun hc => absurd (hcur.trans htail.symm) hc.2) fun _ => ?_
      refine Spec.ret fun s hs => ⟨hs, 0, le_rfl, Nat.zero_le _, ?_, .inr (.inl rfl)⟩
      simp [recordBytes, ← hcur]
    | cons e es =>
      obtain ⟨hcur, nxt, hnode, hlt, hrest⟩ := hseg
      refine Spec.ite (fun _ => ?_) fun hc => ?_
      . refine (entryRead_spec t ev.cur none).bind (fun a => ?_) ?_ (fun _ h => h)
        . refine Spec.assuming (φ := a = (nxt, e.2)) ?_ fun ha => ?_
          . intro s hs
            have := hs.2.1
            rw [hnode] at this
            simp only [Option.some.injEq, Prod.mk.injEq] at this
            exact Prod.ext this.2.symm this.1.symm
          . subst ha
            have hsum : ∀ m, ev.freed + UInt32.ofNat e.2.length +
                UInt32.ofNat (recordBytes (es.take m)) =
                ev.freed + UInt32.ofNat (recordBytes ((e :: es).take (m + 1))) := by
              intro m
              rw [List.take_succ_cons, recordBytes, recordBytes, List.map_cons, List.sum_cons,
                UInt32.ofNat_add, UInt32.add_assoc]
            refine Spec.ite (fun hen => ?_) fun _ => ?_
            . refine Spec.ret fun s hs => ⟨hs.1, 1, by simp, by omega, ?_, .inr (.inr ⟨by omega, hen⟩)⟩
              have hstart : startOf (es ++ [last]) z = nxt := hrest.start.symm
              rw [← hsum 0]
              simp [recordBytes, hstart]
            . refine ((ih _ es (Nat.lt_trans hpos hlt) hrest).pre fun s hs => hs.1).conseq
                (fun _ h => h) ?_ (fun _ _ h => h) (fun _ h => h)
              intro a s hs
              obtain ⟨hst, m, h1, h2, h3, h4⟩ := hs
              refine ⟨hst, m + 1, by simpa using h1, by omega, ?_, ?_⟩
              . rw [h3, ← hsum m]
                simp only [List.cons_append, List.drop_succ_cons, Evicted.mk.injEq, true_and]
                omega
              . rcases h4 with h4 | h4 | h4
                . exact .inl (by omega)
                . exact .inr (.inl (by simpa using h4))
                . exact .inr (.inr ⟨by omega, h4.2⟩)
        . intro er s hs
          rcases hs.2 with ⟨_, hb⟩ | ⟨_, _, hn | ⟨_, _, _, hany⟩⟩
          . exact absurd hb (entryNode_bound hnode)
          . rw [hnode] at hn
            cases hn
          . cases hany
      . exfalso
        have htl : ev.cur ≠ h.tailId := by
          rw [htail]
          have := (hrest.mem_lt (c := last) (by simp))
          have hle := hrest.le_mem (c := last) (by simp)
          omega
        exact hc ⟨by omega, htl⟩

-- The eviction of the first `n` entries.
def LogView.evicted (v : LogView) (n : Nat) : Evicted :=
  ⟨(v.drop n).first, UInt32.ofNat (recordBytes (v.entries.take n)), n⟩

-- The handle after `n` entries were evicted.
theorem Serves.evict (hs : Serves g h v) (hn : n < v.entries.length) :
    Serves g (h.evict (v.evicted n)) (v.drop n) where
  root := hs.root
  epoch := hs.epoch
  capacity := hs.capacity
  mirrors :=
    { head := by
        rw [LogView.headId_eq]
        . rfl
        . simpa [LogView.drop] using hn
      tail := hs.mirrors.tail.trans (LogView.tailId_drop hn).symm
      next := hs.mirrors.next
      count := by
        simp only [Logring.evict, LogView.evicted, hs.mirrors.count, LogView.drop, List.length_drop]
        rw [UInt32.ofNat_sub hn.le]
      bytes := by
        simp only [Logring.evict, LogView.evicted, hs.mirrors.bytes]
        rw [v.bytes_drop n, recordBytes, UInt32.ofNat_add, UInt32.add_comm,
          UInt32.add_sub_cancel] }

theorem Ahead.drop (ha : Ahead d v) (hle : v.first ≤ (v.drop n).first) : Ahead d (v.drop n) := by
  rcases ha with ⟨pre, h1, h2⟩ | ha
  . refine .inl ⟨pre ++ v.entries.take n, ?_, h2⟩
    rw [h1, LogView.drop, List.append_assoc, List.take_append_drop]
  . exact .inr (lt_of_lt_of_le ha hle)

-- The handle has evicted `n` entries; the flash has not.
theorem Running.commits {s : LogWorld} (hs : Running cfg g d v res h s) (hn : n < v.entries.length)
    (hk : n ≤ cfg.k) :
    Commits cfg g d v (v.drop n) (v.entries.take n) (h.evict (v.evicted n)) v.first
      (v.drop n).first res (s.setRam (some (h.evict (v.evicted n)))) := by
  obtain ⟨hl, _, hserves⟩ := hs
  obtain ⟨hseg, hchain⟩ := hl.chain.split n
  obtain ⟨run0, r0, hf⟩ := hl.durable
  have hle := hseg.le
  have hle' := hchain.le
  have habove := hl.above
  have hbelow : (v.drop n).frontier ≤ s.top := hl.below
  have htop := hf.top_lt
  refine
    { durable := hl.durable
      was := fun hc => (hl.in_step hc).1
      chain := hchain
      above := by omega
      below := hl.below
      ahead := hl.ahead.drop hle
      reserved := hl.reserved
      ram := rfl
      serves := hserves.evict hn
      fits := ⟨by omega, by omega⟩
      detached := ⟨?_, ?_, ?_⟩
      clean := ?_
      idle := ?_ }
  . intro h0
    simp only [Logring.toRoot] at h0
    omega
  . rw [List.length_take]
    omega
  . intro _
    exact ⟨habove, le_rfl, _, hseg, .inl rfl⟩
  . intro hc id hid hb
    rcases (hl.in_step hc).2 id hid hb with ⟨rec, hmem⟩ | ⟨_, hmem⟩ | hu
    . rw [← List.take_append_drop n v.entries, List.mem_append] at hmem
      rcases hmem with hmem | hmem
      . exact .inr (.inl ⟨rec, hmem⟩)
      . exact .inl ⟨rec, hmem⟩
    . cases hmem
    . exact .inr (.inr hu)
  . intro _ h0
    omega

-- A checkpoint that evicts nothing.
theorem Running.commits_idle {s : LogWorld} (hs : Running cfg g d v res h s) :
    Commits cfg g d v v [] h 0 0 res s where
  durable := hs.1.durable
  was := fun hc => (hs.1.in_step hc).1
  chain := hs.1.chain
  above := hs.1.above
  below := hs.1.below
  ahead := hs.1.ahead
  reserved := hs.1.reserved
  ram := hs.2.1
  serves := hs.2.2
  fits := ⟨by decide, by decide⟩
  detached := ⟨fun _ => rfl, Nat.zero_le _, fun h0 => absurd rfl h0⟩
  clean := fun hc => (hs.1.in_step hc).2
  idle := fun hc _ _ => hs.1.in_step hc

-- What a checkpoint that evicts `n` entries leaves at each exit.
def CheckpointPost (cfg : LogCfg) (g : LogId) (d v : LogView) (res : List Nat) (N : Nat → Prop) : Post LogWorld Errno Unit where
  ok _ s := ∃ n h', N n ∧ Running cfg g (v.drop n) (v.drop n) res h' s ∧ h'.sinceCkpt = 0
  err _ s := Mishap s.history ∧
    ∃ n h', (n = 0 ∨ n < v.entries.length) ∧ Running cfg g d (v.drop n) res h' s
  cut s := ∃ d', Durable cfg g d' s ∧
    (Calm s.history → ∃ n, (n = 0 ∨ n < v.entries.length) ∧ d' = v.drop n)

-- Nothing but the count of appends since the last checkpoint is lost when it is set back.
theorem Serves.since (hs : Serves g h v) (c : UInt32) : Serves g { h with sinceCkpt := c } v where
  root := hs.root
  epoch := hs.epoch
  capacity := hs.capacity
  mirrors := ⟨hs.mirrors.head, hs.mirrors.tail, hs.mirrors.next, hs.mirrors.count, hs.mirrors.bytes⟩

theorem checkpoint_evicting (hcfg : cfg.Valid) {N : Nat → Prop}
    (hn : n < v.entries.length) (hk : n ≤ cfg.k) (hN : N n) :
    Spec faithful (Running cfg g d v res h)
      (do
        setHandle (h.evict (v.evicted n))
        rootWrite cfg (h.evict (v.evicted n)) h.headId (v.evicted n).cur
        runDelete cfg h.headId (v.evicted n).cur
        setHandle { h.evict (v.evicted n) with sinceCkpt := 0 })
      (CheckpointPost cfg g d v res N) := by
  refine Spec.assuming (φ := Serves g h v ∧ h.headId = v.first ∧ 0 < v.first) ?_ fun hh => ?_
  . intro s hs
    have hne : v.entries ≠ [] := by
      intro h0
      rw [h0] at hn
      cases hn
    have := hs.1.above
    exact ⟨hs.2.2, hs.2.2.mirrors.head.trans (LogView.headId_eq hne), by omega⟩
  obtain ⟨hserves, hhead, hfirst⟩ := hh
  rw [hhead]
  have hserves' := hserves.evict hn
  have hfrom : ((h.evict (v.evicted n)).toRoot v.first (v.drop n).first).evictFrom ≠ 0 := by
    simp only [Logring.toRoot]
    omega
  have hset : Spec faithful (Running cfg g d v res h) (setHandle (h.evict (v.evicted n)))
      ⟨fun _ => Commits cfg g d v (v.drop n) (v.entries.take n) (h.evict (v.evicted n)) v.first
        (v.drop n).first res, fun _ _ => False, fun _ => False⟩ :=
    Spec.setHandle fun s hs => hs.commits hn hk
  refine hset.bind (fun _ => ?_) (fun _ _ h => h.elim) (fun _ h => h.elim)
  refine (rootWrite_spec hcfg).bind (fun _ => ?_) ?_ ?_
  . refine (runDelete_spec hfrom).bind (fun _ => ?_) (fun _ _ h => h.elim) ?_
    . refine Spec.setHandle ?_
      intro s hs
      exact ⟨n, _, hN, ⟨hs.live, rfl, hserves'.since 0⟩, rfl⟩
    . intro s hs
      exact ⟨_, hs, fun _ => ⟨n, .inr hn, rfl⟩⟩
  . intro e s hs
    exact ⟨hs.2.2.1, n, _, .inr hn, hs.1, hs.2.1, hserves'⟩
  . intro s hs
    obtain ⟨d', hd, hcut⟩ := hs
    refine ⟨d', hd, fun hc => ?_⟩
    rcases hcut hc with rfl | rfl
    . exact ⟨0, .inl rfl, d'.drop_zero.symm⟩
    . exact ⟨n, .inr hn, rfl⟩

theorem checkpoint_idle (hcfg : cfg.Valid) {N : Nat → Prop} (hN : N 0) :
    Spec faithful (Running cfg g d v res h)
      (do
        rootWrite cfg h 0 0
        setHandle { h with sinceCkpt := 0 })
      (CheckpointPost cfg g d v res N) := by
  refine Spec.assuming (φ := Serves g h v) (fun s hs => hs.2.2) fun hserves => ?_
  have hwrite : Spec faithful (Commits cfg g d v v [] h 0 0 res) (rootWrite cfg h 0 0) _ :=
    rootWrite_spec hcfg
  refine (hwrite.pre fun s hs => hs.commits_idle).bind (fun _ => ?_) ?_ ?_
  . refine Spec.setHandle ?_
    intro s hs
    refine ⟨0, _, hN, ⟨?_, rfl, ?_⟩, rfl⟩
    . rw [LogView.drop_zero]
      exact hs.pending.live
    . rw [LogView.drop_zero]
      exact hserves.since 0
  . intro e s hs
    refine ⟨hs.2.2.1, 0, h, .inl rfl, ?_⟩
    rw [LogView.drop_zero]
    exact ⟨hs.1, hs.2.1, hserves⟩
  . intro s hs
    obtain ⟨d', hd, hcut⟩ := hs
    refine ⟨d', hd, fun hc => ⟨0, .inl rfl, ?_⟩⟩
    rw [LogView.drop_zero]
    rcases hcut hc with rfl | rfl <;> rfl

-- What the checkpoint is about to evict.
theorem evictWalk_spec (force : Bool) :
    Spec faithful (Running cfg g d v res h) (evictWalk cfg h force)
      ⟨fun ev s => Running cfg g d v res h s ∧ (ev.n = 0 ∧ Evicts cfg.k h force v 0 ∨
        ∃ n, 0 < n ∧ n < v.entries.length ∧ Evicts cfg.k h force v n ∧ ev = v.evicted n),
        fun _ _ => False, fun _ => False⟩ := by
  refine Spec.assuming (φ := Serves g h v ∧ g.root < v.first) (fun s hs => ⟨hs.2.2, hs.1.above⟩)
    fun hh => ?_
  obtain ⟨hserves, habove⟩ := hh
  unfold evictWalk
  extract_lets want
  refine Spec.ite (fun hc => ?_) fun hc => ?_
  . rw [Bool.and_eq_true, decide_eq_true_eq] at hc
    obtain ⟨hwant, hhead⟩ := hc
    rcases List.eq_nil_or_concat v.entries with hnil | ⟨es, last, hlast⟩
    . rw [hserves.mirrors.head, LogView.headId_nil hnil] at hhead
      exact absurd rfl hhead
    . rw [List.concat_eq_append] at hlast
      have hne : v.entries ≠ [] := by simp [hlast]
      have hfirst : h.headId = v.first := hserves.mirrors.head.trans (LogView.headId_eq hne)
      have htail : h.tailId = last.1 := hserves.mirrors.tail.trans (LogView.tailId_snoc hlast)
      have hlen : v.entries.length = es.length + 1 := by simp [hlast]
      refine Spec.each fun t ht => ?_
      have hseg := ht.1.chain.segment
      rw [hlast, ← hfirst] at hseg
      have hpos : 0 < h.headId := by omega
      refine (evictLoop_spec htail cfg.k ⟨h.headId, 0, 0⟩ es hpos hseg).conseq
        (fun _ h => h) ?_ (fun _ _ h => h) (fun _ h => h)
      intro ev s hs
      obtain ⟨⟨l, rfl⟩, m, h1, h2, h3, h4⟩ := hs
      have htake : v.entries.take m = es.take m := by
        rw [hlast, List.take_append_of_le_length h1]
      have hevicts : Evicts cfg.k h force v m := by
        refine ⟨?_, h2, ?_, ?_⟩
        . omega
        . intro hforce hle
          exfalso
          simp only [want, hforce, Bool.false_or, decide_eq_true_eq] at hwant
          exact absurd hwant (UInt32.not_lt.mpr hle)
        . intro _
          rw [htake]
          rcases h4 with h4 | h4 | ⟨_, h4, h5⟩
          . exact .inl h4
          . exact .inr (.inl (by omega))
          . rw [h3] at h5
            simp only [UInt32.zero_add] at h5
            exact .inr (.inr ⟨h4, h5⟩)
      refine ⟨ht, ?_⟩
      by_cases hm : m = 0
      . subst hm
        exact .inl ⟨by rw [h3], hevicts⟩
      . refine .inr ⟨m, by omega, by omega, hevicts, ?_⟩
        rw [h3, LogView.evicted, htake, LogView.first, LogView.drop, hlast]
        simp
  . refine Spec.ret fun s hs => ⟨hs, .inl ⟨rfl, ?_⟩⟩
    refine ⟨.inl rfl, Nat.zero_le _, fun _ _ => rfl, ?_⟩
    intro hw
    refine .inr (.inl ?_)
    have hwant : want = true := by
      simp only [want, Bool.or_eq_true, decide_eq_true_eq]
      exact hw
    rw [hwant, Bool.true_and, decide_eq_true_eq, not_not, hserves.mirrors.head] at hc
    by_cases hnil : v.entries = []
    . simp [hnil]
    . rw [LogView.headId_eq hnil] at hc
      omega

theorem checkpoint_spec (hcfg : cfg.Valid) (force : Bool) :
    Spec faithful (Running cfg g d v res h) (checkpoint cfg force)
      (CheckpointPost cfg g d v res (Evicts cfg.k h force v)) := by
  unfold checkpoint
  refine (Spec.handle (h := h) (Q := ⟨fun a s => a = h ∧ Running cfg g d v res h s, fun _ _ => False,
    fun _ => False⟩) (fun s hs => hs.2.1) fun s hs => ⟨rfl, hs⟩).bind (fun a => ?_)
    (fun _ _ h => h.elim) (fun _ h => h.elim)
  refine Spec.assuming (φ := a = h) (fun s hs => hs.1) fun ha => ?_
  subst ha
  refine ((evictWalk_spec force).pre fun s hs => hs.2).bind (fun ev => ?_) (fun _ _ h => h.elim)
    (fun _ h => h.elim)
  refine Spec.ite (fun hpos => ?_) fun hpos => ?_
  . refine Spec.assuming (φ := ∃ n, 0 < n ∧ n < v.entries.length ∧ Evicts cfg.k a force v n ∧
      ev = v.evicted n) ?_ fun hex => ?_
    . intro s hs
      rcases hs.2 with ⟨h0, _⟩ | hex
      . omega
      . exact hex
    . obtain ⟨n, _, h2, h3, h4⟩ := hex
      subst h4
      exact (checkpoint_evicting hcfg h2 h3.le_k h3).pre fun s hs => hs.1
  . refine Spec.assuming (φ := Evicts cfg.k a force v 0) ?_ fun h0 => ?_
    . intro s hs
      rcases hs.2 with ⟨_, h0⟩ | ⟨n, h1, _, _, h4⟩
      . exact h0
      . rw [h4] at hpos
        exact absurd h1 hpos
    . exact (checkpoint_idle hcfg h0).pre fun s hs => hs.1

end KeyValueDb.Containers
