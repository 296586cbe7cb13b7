import KeyValueDb.Containers.LogringSpecs

/-!
What the public calls do to a log: create, open, append, reset, and reading.
-/

namespace KeyValueDb.Containers

variable {cfg : LogCfg} {g : LogId} {v d : LogView} {res : List Nat} {h : Logring} {n : Nat}

/-! Open -/

-- The walk of open goes over one more entry.
def Walked.add (wk : Walked) (e : LogEntry) : Walked :=
  ⟨e.1, wk.nextFree, wk.bound + 1, wk.bytes + e.2.length, some (wk.firstLen.getD e.2.length)⟩

theorem openWalk_spec {t : LogWorld} {z : Nat} (hz : t.blobs z = none) :
    ∀ (fuel cur : Nat) (wk : Walked) (cs : List LogEntry),
      Segment (entryNode cfg t.blobs) cur cs z → cs.length < fuel →
      Spec faithful t.Reread (openWalk cfg fuel cur wk)
        ⟨fun a s => t.Reread s ∧ a = { cs.foldl Walked.add wk with nextFree := z },
          fun _ _ => False, fun _ => False⟩ := by
  intro fuel
  induction fuel with
  | zero =>
    intro _ _ _ _ hlen
    omega
  | succ fuel ih =>
    intro cur wk cs hseg hlen
    refine (entryRead_spec t cur none).attempt.bind ?_ (fun _ _ h => h.elim) (fun _ h => h)
    intro o
    cases cs with
    | nil =>
      have hcur : t.blobs cur = none := hseg ▸ hz
      cases o with
      | error e =>
        refine Spec.assuming (φ := e = Errno.ENOENT) ?_ fun he => ?_
        . intro s hs
          rcases hs.2 with ⟨he, _⟩ | ⟨_, hb, _⟩
          . exact he
          . exact absurd hcur hb
        . refine Spec.ite (fun _ => ?_) fun hne => absurd he hne
          exact Spec.ret fun s hs => ⟨hs.1, by rw [← hseg]; rfl⟩
      | ok a =>
        intro s hs
        exact absurd hcur (entryNode_bound hs.2.1)
    | cons e cs =>
      obtain ⟨rfl, nxt, hnode, hlt, hrest⟩ := hseg
      cases o with
      | error er =>
        intro s hs
        rcases hs.2 with ⟨_, hb⟩ | ⟨_, _, hn | ⟨_, _, _, hany⟩⟩
        . exact absurd hb (entryNode_bound hnode)
        . rw [hnode] at hn
          cases hn
        . cases hany
      | ok a =>
        refine Spec.assuming (φ := a = (nxt, e.2)) ?_ fun ha => ?_
        . intro s hs
          have := hs.2.1
          rw [hnode] at this
          simp only [Option.some.injEq, Prod.mk.injEq] at this
          exact Prod.ext this.2.symm this.1.symm
        . subst ha
          refine Spec.ite (fun hle => absurd hlt (by omega)) fun _ => ?_
          exact (ih nxt _ cs hrest (by simpa using hlen)).pre fun s hs => hs.1

theorem walked_eq (cs : List LogEntry) (z : Nat) :
    cs.foldl Walked.add ⟨0, z, 0, 0, none⟩ =
      ⟨(LogView.mk cs 0).tailId, z, UInt32.ofNat cs.length, recordBytes cs,
        cs.head?.map fun e => e.2.length⟩ := by
  induction cs using List.reverseRecOn with
  | nil => rfl
  | append_singleton cs e ih =>
    rw [List.foldl_append, ih]
    simp only [List.foldl_cons, List.foldl_nil, Walked.add, Walked.mk.injEq, true_and]
    refine ⟨?_, ?_, ?_, ?_⟩
    . exact (LogView.tailId_snoc rfl).symm
    . simp
    . simp [recordBytes]
    . cases cs <;> rfl

-- The handle made of a root and of the entries from its waypoint on serves the log.
theorem ClogRoot.Describes.serves {r : ClogRoot} {b : Blobs} {cs : List LogEntry}
    (hr : r.Describes v) (hc : Chained cfg b v) (hpos : 0 < v.first) (hep : r.epoch = g.epoch)
    (hcap : r.capacityBytes = g.capacityBytes)
    (hseg : Segment (entryNode cfg b) r.waypointId cs v.frontier) :
    Serves g (r.toHandle g.root
      { cs.foldl Walked.add ⟨0, r.waypointId, 0, 0, none⟩ with nextFree := v.frontier }) v := by
  rw [walked_eq]
  cases hr with
  | fresh hhead hway =>
    have hcs : cs = v.entries := by
      rw [hway] at hseg
      have h1 := hc.segment.prefix_of (by simp [entryNode, hc.free]) hseg
      have h2 := hseg.prefix_of (by simp [entryNode, hc.free]) hc.segment
      exact h1.eq_of_length_le h2.length_le
    subst hcs
    refine ⟨rfl, hep, hcap, ?_, ?_, rfl, ?_, ?_⟩
    . simp only [ClogRoot.toHandle, hhead, if_true]
      rcases List.eq_nil_or_concat v.entries with hnil | ⟨pre, e, he⟩
      . rw [LogView.headId_nil hnil, hnil]
        rfl
      . rw [List.concat_eq_append] at he
        have htail : (LogView.mk v.entries 0).tailId = e.1 := LogView.tailId_snoc he
        have hle : v.first ≤ e.1 := hc.segment.le_mem (by simp [he])
        rw [htail, if_pos (by omega), hway, LogView.headId_eq (by simp [he])]
    . rfl
    . simp only [ClogRoot.toHandle, hhead, if_true]
    . simp only [ClogRoot.toHandle, hhead, if_true]
      rfl
  | counted pre w post hsplit hhead hne hway hcount hbytes =>
    have hcs : cs = w :: post := by
      have hv := hc.segment
      rw [hsplit, Segment.append_iff] at hv
      obtain ⟨m, _, hm⟩ := hv
      have hmw : m = w.1 := hm.start
      rw [hmw] at hm
      rw [hway] at hseg
      have h1 := hm.prefix_of (by simp [entryNode, hc.free]) hseg
      have h2 := hseg.prefix_of (by simp [entryNode, hc.free]) hm
      exact h1.eq_of_length_le h2.length_le
    subst hcs
    refine ⟨rfl, hep, hcap, ?_, ?_, rfl, ?_, ?_⟩
    . simp only [ClogRoot.toHandle]
      rw [if_neg hne, hhead, LogView.headId_eq (by simp [hsplit])]
    . simp only [ClogRoot.toHandle, LogView.tailId, hsplit]
      rw [List.getLast?_append_of_ne_nil _ (by simp)]
    . simp only [ClogRoot.toHandle]
      rw [if_neg hne, hcount, hsplit, List.length_append, List.length_cons, UInt32.ofNat_add,
        UInt32.ofNat_add, UInt32.ofNat_add, UInt32.ofNat_add]
      have : UInt32.ofNat post.length + UInt32.ofNat 1 - 1 = UInt32.ofNat post.length :=
        UInt32.add_sub_cancel ..
      rw [this, UInt32.add_assoc, UInt32.add_comm (UInt32.ofNat 1)]
    . simp only [ClogRoot.toHandle]
      rw [if_neg hne, hbytes]
      simp only [List.head?_cons, Option.map_some, Option.getD_some, recordBytes, List.map_cons,
        List.sum_cons, Nat.add_sub_cancel_left]
      rw [← UInt32.ofNat_add, LogView.bytes, hsplit]
      simp [Nat.add_assoc]

-- Whatever the RAM was, and whether the last eviction was complete or not.
theorem logringOpen_spec :
    Spec faithful (Durable cfg g v) (logringOpen cfg g.root)
      ⟨fun _ s => ∃ h, Running cfg g v v [] h s ∧ h.sinceCkpt = 0, fun _ _ => False,
        Durable cfg g v⟩ := by
  have hpre : ∀ s : LogWorld, Durable cfg g v s →
      ∃ i : List LogEntry × ClogRoot × Option Logring, Held cfg g v i.1 i.2.1 i.2.2 [] s := by
    intro s ⟨run, r, hf⟩
    exact ⟨⟨run, r, s.ram⟩, hf, rfl, nofun⟩
  refine Spec.pre (Spec.given fun i => ?_) hpre
  obtain ⟨run, r, ram⟩ := i
  refine Spec.assuming (φ := 0 < g.root) (fun s hs => hs.1.root_pos) fun hroot => ?_
  refine Spec.ite (fun h0 => by omega) fun _ => ?_
  have hload : Spec faithful (Held cfg g v run r ram []) (rootLoad g.root)
      ⟨fun a s => Held cfg g v run r ram [] s ∧ a = r, fun _ _ => False, fun _ => False⟩ := by
    refine Spec.each fun t ht => ?_
    refine (rootLoad_spec ht.1.root_bound ht.1.fits).conseq (fun _ h => h) ?_ (fun _ _ h => h)
      (fun _ h => h)
    intro a s hs
    obtain ⟨⟨l, rfl⟩, ha⟩ := hs
    exact ⟨ht, ha⟩
  refine hload.bind (fun a => ?_) (fun _ _ h => h.elim) (fun _ h => h.elim)
  refine Spec.assuming (φ := a = r) (fun s hs => hs.2) fun ha => ?_
  subst ha
  -- the last eviction is finished
  have hsweep : Spec faithful (fun s => Held cfg g v run a ram [] s ∧ a = a)
      (Proc.when (decide (a.evictFrom ≠ 0)) (runDelete cfg a.evictFrom a.evictTo))
      ⟨fun _ => Pending cfg g v a ram [] [], fun _ _ => False, Durable cfg g v⟩ := by
    unfold Proc.when
    refine Spec.ite (fun hc => ?_) fun hc => ?_
    . exact (runDelete_spec (by simpa using hc)).pre fun s hs => hs.1
    . refine Spec.ret fun s hs => ?_
      have hnil : run = [] := hs.1.1.detached.none_left (by simpa using hc)
      subst hnil
      exact hs.1.pending
  refine hsweep.bind (fun _ => ?_) (fun _ _ h => h.elim) (fun _ h => h)
  refine Spec.read_bind fun top => ?_
  have hwalk : Spec faithful (fun s => s.top + 1 = top ∧ Pending cfg g v a ram [] [] s)
      (openWalk cfg (top + 1) a.waypointId ⟨0, a.waypointId, 0, 0, none⟩)
      ⟨fun wk s => Pending cfg g v a ram [] [] s ∧ Serves g (a.toHandle g.root wk) v,
        fun _ _ => False, fun _ => False⟩ := by
    refine Spec.each fun t ht => ?_
    obtain ⟨run', ⟨hf, _⟩, _⟩ := ht.2
    have hpos : 0 < v.first := Nat.lt_of_le_of_lt (Nat.zero_le _) hf.above
    -- the chain from the waypoint on
    have hcs : ∃ cs, Segment (entryNode cfg t.blobs) a.waypointId cs v.frontier := by
      cases hf.describes with
      | fresh hhead hway => exact ⟨v.entries, hway ▸ hf.chain.segment⟩
      | counted pre w post hsplit _ _ hway =>
        have hv := hf.chain.segment
        rw [hsplit, Segment.append_iff] at hv
        obtain ⟨m, _, hm⟩ := hv
        have hmw : m = a.waypointId := hm.start.trans hway.symm
        exact ⟨w :: post, hmw ▸ hm⟩
    obtain ⟨cs, hseg⟩ := hcs
    have hlen : cs.length < top + 1 := by
      have h1 := hseg.length_le
      have h2 := hf.below
      have h3 := ht.1
      omega
    refine (openWalk_spec hf.chain.free _ _ _ cs hseg hlen).conseq (fun _ h => h) ?_
      (fun _ _ h => h) (fun _ h => h)
    intro wk s hs
    obtain ⟨⟨l, rfl⟩, rfl⟩ := hs
    exact ⟨ht.2, hf.describes.serves hf.chain hpos hf.same_epoch hf.same_capacity hseg⟩
  refine hwalk.bind (fun wk => ?_) (fun _ _ h => h.elim) (fun _ h => h.elim)
  refine Spec.setHandle ?_
  intro s hs
  exact ⟨_, ⟨hs.1.live, rfl, hs.2⟩, rfl⟩

/-! Append -/

theorem LogView.drop_bind {rec : List UInt8} {r2 : Nat} (hn : n = 0 ∨ n < v.entries.length) :
    (v.drop n).bind rec r2 = (v.bind rec r2).drop n := by
  have : n ≤ v.entries.length := by omega
  simp only [LogView.bind, LogView.drop, List.drop_append_of_le_length this]

-- Dropping twice from a view drops less than all of it.
theorem LogView.drop_small {m : Nat} (hn : n = 0 ∨ n < v.entries.length)
    (hm : m = 0 ∨ m < (v.drop n).entries.length) : n + m = 0 ∨ n + m < v.entries.length := by
  simp only [LogView.drop, List.length_drop] at hm
  omega

-- The log after its reserved id was bound.
theorem Live.bind (hcfg : cfg.Valid) {s : LogWorld} {rec : List UInt8} {r2 : Nat}
    (hs : Live cfg g d v [r2] s) (hrec : rec.length ≤ cfg.maxRecord) {t : Turn}
    (ht : t.landed = true)
    (hfit : s.used + (entryImage r2 rec).length ≤ cfg.partition + s.blobs.size v.frontier) :
    ∃ d', Live cfg g d' (v.bind rec r2) [] (s.edit v.frontier (some (entryImage r2 rec)) t) := by
  obtain ⟨run, r, hf⟩ := hs.durable
  obtain ⟨hr2, htop, hfree⟩ := hs.reserved r2 List.mem_cons_self
  have hb := s.edit_blobs v.frontier (some (entryImage r2 rec)) ht
  have hle := hs.chain.le
  have hlt := hf.top_lt
  have htally : Tallied cfg.toStoreCfg
      (Function.update s.blobs v.frontier (some (entryImage r2 rec)))
      (s.edit v.frontier (some (entryImage r2 rec)) t).used := by
    rw [s.edit_used _ _ ht]
    exact hf.tallied.update hfit
  have hchain := hs.chain.bind hcfg hr2 (by omega) hfree hrec
  -- in step, the entry is one of the log on flash
  have hstep : Calm (s.edit v.frontier (some (entryImage r2 rec)) t).history →
      d.frontier = v.frontier ∧ d.bind rec r2 = v.bind rec r2 ∧
        Clean g.root (s.edit v.frontier (some (entryImage r2 rec)) t).blobs (v.bind rec r2) []
          (s.edit v.frontier (some (entryImage r2 rec)) t).history := by
    intro hc
    obtain ⟨rfl, hclean⟩ := hs.in_step (Calm.tail hc)
    refine ⟨rfl, rfl, ?_⟩
    intro id hid hbound
    by_cases he : id = d.frontier
    . exact .inl ⟨rec, by simp [LogView.bind, he]⟩
    . rw [hb, Function.update_of_ne he] at hbound
      rcases hclean id hid hbound with ⟨rec', hmem⟩ | ⟨_, hmem⟩ | hu
      . exact .inl ⟨rec', by simp [LogView.bind, hmem]⟩
      . cases hmem
      . exact .inr (.inr (hu.later (List.suffix_cons _ _)))
  rcases hs.ahead with ⟨pre, hpre, hfr⟩ | hahead
  . refine ⟨d.bind rec r2, ⟨run, r, ?_⟩, ?_, ?_, htop, ?_, fun hc => (hstep hc).2, by rintro _ ⟨⟩⟩
    . have hgrows : s.history <:+ (s.edit v.frontier (some (entryImage r2 rec)) t).history :=
        List.suffix_cons _ _
      have hbind := hf.bind hcfg (by omega) htop hfree hrec (by rw [hfr]; exact htally) hgrows
      rw [hfr] at hbind
      rw [hb]
      exact hbind
    . rw [hb]
      exact hchain
    . rw [LogView.first_bind]
      exact hs.above
    . exact .inl ⟨pre, by simp [LogView.bind, hpre, hfr], rfl⟩
  . have hnot : ¬ Calm (s.edit v.frontier (some (entryImage r2 rec)) t).history := by
      intro hc
      have := (hstep hc).1
      omega
    refine ⟨d, ⟨run, r, ?_⟩, ?_, ?_, htop, ?_, fun hc => absurd hc hnot, by rintro _ ⟨⟩⟩
    . rw [hb]
      exact hf.bind_past (by omega) hs.below htally hnot
    . rw [hb]
      exact hchain
    . rw [LogView.first_bind]
      exact hs.above
    . rw [Ahead, LogView.first_bind]
      exact .inr hahead

-- An update that does nothing leaves the log as it was.
theorem Live.later {s s' : LogWorld} (hs : Live cfg g d v res s) (hb : s'.blobs = s.blobs)
    (hused : s'.used = s.used) (htop : s.top ≤ s'.top) (hlt : s'.top < 2 ^ 64)
    (hh : s ≤ s') : Live cfg g d v res s' := by
  unfold Live
  rw [hb, hused]
  obtain ⟨run, r, hf⟩ := hs.durable
  refine ⟨⟨run, r, hf.later hh htop hlt⟩, hs.chain, hs.above, hs.below.trans htop, hs.ahead,
    fun hc => ⟨(hs.in_step (hc.of_suffix hh)).1, (hs.in_step (hc.of_suffix hh)).2.later hh⟩, ?_⟩
  intro i hi
  have := hs.reserved i hi
  exact ⟨this.1, this.2.1.trans htop, this.2.2⟩

theorem Live.top_lt {s : LogWorld} (hs : Live cfg g d v res s) : s.top < 2 ^ 64 := by
  obtain ⟨run, r, hf⟩ := hs.durable
  exact hf.top_lt

theorem entryWrite_spec (hcfg : cfg.Valid) {rec : List UInt8} {r2 : Nat}
    (hrec : rec.length ≤ cfg.maxRecord) :
    Spec faithful (Running cfg g d v [r2] h) (entryWrite cfg v.frontier r2 rec)
      ⟨fun _ s => ∃ d', Live cfg g d' (v.bind rec r2) [] s ∧ s.ram = some h ∧ Serves g h v,
        fun _ => Running cfg g d v [r2] h,
        fun s => ∃ d', Durable cfg g d' s ∧ (Calm s.history → d' = v ∨ d' = v.bind rec r2)⟩ := by
  have hsame : ∀ (s : LogWorld) (data : List UInt8) (t : Turn), t.landed = false →
      Running cfg g d v [r2] h s → Live cfg g d v [r2] (s.edit v.frontier (some data) t) := by
    intro s data t ht hs
    refine hs.1.later ?_ ?_ le_rfl hs.1.top_lt (List.suffix_cons _ _)
    . simp [World.edit, ht]
    . simp [World.edit, ht]
  apply Spec.blobDbUpdate
  . intro s hs hfit
    obtain ⟨d', hlive⟩ := hs.1.bind hcfg hrec (t := .done) rfl hfit
    exact ⟨d', hlive, hs.2⟩
  . intro s e landed hs hh
    cases landed with
    | true => exact absurd rfl (hh _ List.mem_cons_self e)
    | false => exact ⟨hsame s _ _ rfl hs, hs.2⟩
  . intro s landed hs hfit
    cases landed with
    | true =>
      obtain ⟨d', hlive⟩ := hs.1.bind hcfg hrec (t := .cut true) rfl (hfit rfl)
      exact ⟨d', hlive.durable, fun hc => .inr (hlive.in_step hc).1⟩
    | false =>
      have hlive := hsame s (entryImage r2 rec) (.cut false) rfl hs
      exact ⟨d, hlive.durable, fun hc => .inl (hlive.in_step hc).1⟩
  . intro s hs hbad
    exfalso
    have h1 := hcfg.root_fits
    have h2 := hcfg.single_slot
    have hle := hs.1.chain.le
    have habove := hs.1.above
    have hbelow := hs.1.below
    simp only [clogRootLen] at h1
    simp only [LogCfg.maxRecord, clogEntryHdr] at hrec
    rw [entryImage_length, clogEntryHdr] at hbad
    omega

-- The records of a log fit into the store together, so their total fits its counter.
theorem LiveOn.small {d v : LogView} {res : List Nat} {b : Blobs} {top used : Nat}
    {hist : List Event} (hcfg : cfg.Valid) (h : LiveOn cfg g d v res b top used hist) :
    v.entries.length + v.bytes < 2 ^ 32 := by
  obtain ⟨run, r, hf⟩ := h.durable
  have hsum := hf.tallied.2 (v.entries.map Prod.fst) ?_
  . have hsize : ((v.entries.map Prod.fst).map b.size) =
        v.entries.map fun e => clogEntryHdr + e.2.length := by
      rw [List.map_map]
      apply List.map_congr_left
      intro e he
      obtain ⟨n, hn⟩ := h.chain.segment.node_mem he
      exact entryNode_size hn
    have hle := hf.tallied.1
    have hpart := hcfg.partition_lt
    have hsplit : ∀ es : List LogEntry, (es.map fun e => clogEntryHdr + e.2.length).sum =
        clogEntryHdr * es.length + (es.map fun e => e.2.length).sum := by
      intro es
      induction es with
      | nil => rfl
      | cons e es ih =>
        simp only [List.map_cons, List.sum_cons, ih, List.length_cons, Nat.mul_add]
        omega
    rw [hsize, hsplit, clogEntryHdr] at hsum
    rw [LogView.bytes]
    omega
  . rw [List.nodup_iff_pairwise_ne, List.pairwise_map]
    exact h.chain.segment.ascending.imp fun hlt => hlt.ne

-- What is left of the log when power is lost in an append: it lacks some of the oldest entries, or
-- has the new one.
def AppendCut (cfg : LogCfg) (g : LogId) (v : LogView) (rec : List UInt8) (s : LogWorld) : Prop :=
  ∃ d', Durable cfg g d' s ∧ (Calm s.history →
    (∃ n, (n = 0 ∨ n < v.entries.length) ∧ d' = v.drop n) ∨
      ∃ n r2, n ≤ v.entries.length ∧ d' = (v.bind rec r2).drop n)

-- A log that is neither empty nor down to one entry.
theorem Serves.long (hs : Serves g h v) (hhead : h.headId ≠ 0) (htail : h.headId ≠ h.tailId) :
    1 < v.entries.length := by
  rw [hs.mirrors.head] at hhead htail
  rw [hs.mirrors.tail] at htail
  match hv : v.entries with
  | [] => exact absurd (LogView.headId_nil hv) hhead
  | [e] =>
    rw [LogView.tailId_single hv] at htail
    exact absurd (by simp [LogView.headId, hv]) htail
  | e :: e' :: es => simp

-- A forced checkpoint of more than one entry evicts.
theorem Evicts.forced (hn : Evicts cfg.k h true v n) (hcfg : cfg.Valid)
    (hlong : 1 < v.entries.length) :
    0 < n ∧ n < v.entries.length ∧ (cfg.k ≤ n ∨ v.entries.length ≤ n + 1) := by
  have hk := hcfg.k_pos
  have hsmall := hn.small
  rcases hn.enough (.inl rfl) with he | he | ⟨hf, _⟩
  . omega
  . omega
  . cases hf

-- What making room for a new entry has done to the log: nothing or, the store being full, evictions.
def Made (k : Nat) (v : LogView) (h : Logring) (full : Prop) (n : Nat) (h' : Logring) : Prop :=
  (n = 0 ∨ n < v.entries.length) ∧
    (n = 0 ∧ h' = h ∨ full ∧ h'.sinceCkpt = 0 ∧ (k ≤ n ∨ v.entries.length ≤ n + 1))

theorem Made.nothing (k : Nat) (v : LogView) (h : Logring) (full : Prop) : Made k v h full 0 h :=
  ⟨.inl rfl, .inl ⟨rfl, rfl⟩⟩

-- One checkpoint and more of them.
theorem Made.after {k m : Nat} {full full' : Prop} {h' h2 : Logring} (hfull : full)
    (hlt : n < v.entries.length) (hn : k ≤ n ∨ v.entries.length ≤ n + 1) (hsince : h'.sinceCkpt = 0)
    (h3 : Made k (v.drop n) h' full' m h2) : Made k v h full (n + m) h2 := by
  refine ⟨LogView.drop_small (.inr hlt) h3.1, .inr ⟨hfull, ?_, by omega⟩⟩
  rcases h3.2 with ⟨_, rfl⟩ | ⟨_, h0, _⟩
  . exact hsince
  . exact h0

-- `full` is so if the store refuses the entry at first.
theorem bindEvicting_spec (hcfg : cfg.Valid) {rec : List UInt8} {r2 : Nat}
    (hrec : rec.length ≤ cfg.maxRecord) :
    ∀ (fuel : Nat) (d v : LogView) (h : Logring) (full : Prop), v.entries.length < fuel →
      Spec faithful
        (fun s => Running cfg g d v [r2] h s ∧
          (s.Refuses cfg.toStoreCfg v.frontier (clogEntryHdr + rec.length) ↔ full))
        (bindEvicting cfg v.frontier r2 rec fuel)
        ⟨fun _ s => ∃ n d' h', Made cfg.k v h full n h' ∧ (full → h'.sinceCkpt = 0) ∧
          Live cfg g d' ((v.drop n).bind rec r2) [] s ∧ s.ram = some h' ∧ Serves g h' (v.drop n),
        fun _ s => ∃ n d' h', (n = 0 ∨ n < v.entries.length) ∧
          (Made cfg.k v h full n h' ∨ Mishap s.history) ∧ Running cfg g d' (v.drop n) [r2] h' s,
        AppendCut cfg g v rec⟩ := by
  intro fuel
  induction fuel with
  | zero =>
    intro _ _ _ _ hlen
    omega
  | succ fuel ih =>
    intro d v h full hlen
    have hspec : Spec faithful (Running cfg g d v [r2] h) (entryWrite cfg v.frontier r2 rec) _ :=
      entryWrite_spec hcfg hrec
    have hwrite := (hspec.both
      (Spec.run (P := fun s => s.Refuses cfg.toStoreCfg v.frontier (clogEntryHdr + rec.length) ↔ full)
        (entryWrite cfg v.frontier r2 rec)))
    refine hwrite.attempt.bind ?_ (fun _ _ h => h.elim) ?_
    . intro o
      cases o with
      | ok u =>
        refine Spec.ret fun s hs => ?_
        obtain ⟨⟨d', h1, h2, h3⟩, t, ht, hrun⟩ := hs
        have hroom := Spec.blobDbUpdate_taken hrun
        rw [entryImage_length, ht] at hroom
        refine ⟨0, d', h, .nothing .., fun hf => absurd hf hroom, ?_, h2, ?_⟩
        . rwa [LogView.drop_zero]
        . rwa [LogView.drop_zero]
      | error e =>
        refine Spec.assuming (φ := (e = Errno.ENOSPC → full) ∧ Serves g h v) ?_ fun hφ => ?_
        . intro s hs
          refine ⟨fun he => ?_, hs.1.2.2⟩
          obtain ⟨t, ht, hrun⟩ := hs.2
          have := Spec.blobDbUpdate_refused (he ▸ hrun)
          rw [entryImage_length] at this
          exact ht.mp this
        obtain ⟨hfull, hserves⟩ := hφ
        refine Spec.pre (P := Running cfg g d v [r2] h) ?_ fun s hs => hs.1
        refine (Spec.handle (h := h) (Q := ⟨fun a s => a = h ∧ Running cfg g d v [r2] h s,
          fun _ _ => False, fun _ => False⟩) (fun s hs => hs.2.1) fun s hs => ⟨rfl, hs⟩).bind
          (fun a => ?_) (fun _ _ h => h.elim) (fun _ h => h.elim)
        refine Spec.assuming (φ := a = h) (fun s hs => hs.1) fun ha => ?_
        subst ha
        refine Spec.ite (fun hc => ?_) fun _ => ?_
        . have hlong := hserves.long hc.2.1 hc.2.2
          refine ((checkpoint_spec hcfg true).pre fun s hs => hs.2).bind (fun _ => ?_) ?_ ?_
          . refine Spec.given fun n => Spec.given fun h' => ?_
            refine Spec.assuming (φ := Evicts cfg.k a true v n ∧ h'.sinceCkpt = 0)
              (fun s hs => ⟨hs.1, hs.2.2⟩) fun hn => ?_
            obtain ⟨hn, hsince⟩ := hn
            obtain ⟨hpos, hlt, hmuch⟩ := hn.forced hcfg hlong
            refine Spec.pre (P := fun s => ∃ again : Prop, Running cfg g (v.drop n) (v.drop n) [r2] h' s ∧
              (s.Refuses cfg.toStoreCfg (v.drop n).frontier (clogEntryHdr + rec.length) ↔ again))
              (Spec.given fun again => ?_) fun s hs => ⟨_, hs.2.1, Iff.rfl⟩
            have hrest := ih (v.drop n) (v.drop n) h' again (by
              simp only [LogView.drop, List.length_drop]
              omega)
            refine hrest.conseq (fun _ h => h) ?_ ?_ ?_
            . intro u s hs
              obtain ⟨m, d', h2, h3, _, h4, h5, h6⟩ := hs
              rw [LogView.drop_drop] at h4 h6
              have hmade : Made cfg.k v a full (n + m) h2 :=
                h3.after (hfull hc.1) hlt hmuch hsince
              refine ⟨n + m, d', h2, hmade, fun _ => ?_, h4, h5, h6⟩
              rcases hmade.2 with ⟨h0, _⟩ | ⟨_, h0, _⟩
              . omega
              . exact h0
            . intro e s hs
              obtain ⟨m, d', h2, h3, h4, h5⟩ := hs
              rw [LogView.drop_drop] at h5
              exact ⟨n + m, d', h2, LogView.drop_small (.inr hlt) h3,
                h4.imp_left fun h4 => h4.after (hfull hc.1) hlt hmuch hsince, h5⟩
            . intro s hs
              obtain ⟨d', h1, h2⟩ := hs
              refine ⟨d', h1, fun hcalm => ?_⟩
              rcases h2 hcalm with ⟨m, h3, h4⟩ | ⟨m, r, h3, h4⟩
              . rw [LogView.drop_drop] at h4
                exact .inl ⟨n + m, LogView.drop_small (.inr hlt) h3, h4⟩
              . rw [LogView.drop_bind (.inr hlt), LogView.drop_drop] at h4
                refine .inr ⟨n + m, r, ?_, h4⟩
                simp only [LogView.drop, List.length_drop] at h3
                omega
          . intro e s hs
            obtain ⟨hmis, n, h', h1, h2⟩ := hs
            exact ⟨n, d, h', h1, .inr hmis, h2⟩
          . intro s hs
            obtain ⟨d', h1, h2⟩ := hs
            exact ⟨d', h1, fun hc => .inl (h2 hc)⟩
        . refine Spec.fail fun s hs => ⟨0, d, a, .inl rfl, .inl (.nothing ..), ?_⟩
          rw [LogView.drop_zero]
          exact hs.2
    . intro s hs
      obtain ⟨d', h1, h2⟩ := hs.1
      refine ⟨d', h1, fun hc => ?_⟩
      rcases h2 hc with rfl | rfl
      . exact .inl ⟨0, .inl rfl, by rw [LogView.drop_zero]⟩
      . exact .inr ⟨0, r2, Nat.zero_le _, by rw [LogView.drop_zero]⟩

theorem Serves.append (hs : Serves g h v) (hpos : 0 < v.first)
    (hlast : ∀ e ∈ v.entries, v.first ≤ e.1) (rec : List UInt8) (r2 : Nat) :
    Serves g (h.append r2 rec.length) (v.bind rec r2) where
  root := hs.root
  epoch := hs.epoch
  capacity := hs.capacity
  mirrors := by
    have hbind : (v.bind rec r2).entries = v.entries ++ [(v.frontier, rec)] := rfl
    refine ⟨?_, ?_, rfl, ?_, ?_⟩
    . rw [LogView.headId_eq (by simp [hbind]), LogView.first_bind]
      simp only [Logring.append, hs.mirrors.tail, hs.mirrors.next, hs.mirrors.head]
      rcases List.eq_nil_or_concat v.entries with hnil | ⟨pre, e, he⟩
      . rw [if_pos (LogView.tailId_nil hnil), LogView.first_nil hnil]
      . rw [List.concat_eq_append] at he
        have hle := hlast e (by simp [he])
        rw [if_neg (by rw [LogView.tailId_snoc he]; omega), LogView.headId_eq (by simp [he])]
    . rw [LogView.tailId_snoc hbind]
      exact hs.mirrors.next
    . simp only [Logring.append, hs.mirrors.count, hbind, List.length_append, List.length_singleton]
      rw [UInt32.ofNat_add]
      rfl
    . simp only [Logring.append, hs.mirrors.bytes]
      rw [LogView.bytes_bind, UInt32.ofNat_add]

-- Whether an append ends with a checkpoint: `h` is the handle before the entry is counted.
def Logring.due (h : Logring) (k : Nat) : Prop := h.tailId = 0 ∨ k ≤ (h.sinceCkpt + 1).toNat

-- What an append that returned has done: evict some entries for room, bind its own, and make a
-- checkpoint if one is due.
def Appended (cfg : LogCfg) (g : LogId) (v : LogView) (h : Logring) (rec : List UInt8) (full : Prop)
    (s : LogWorld) : Prop :=
  ∃ n r2 h1, Made cfg.k v h full n h1 ∧ (full → h1.sinceCkpt = 0) ∧ Serves g h1 (v.drop n) ∧
    Serves g (h1.append r2 rec.length) ((v.drop n).bind rec r2) ∧
    ((v.drop n).bind rec r2).bytes < 2 ^ 32 ∧
    ((¬ h1.due cfg.k ∧ ∃ d', Running cfg g d' ((v.drop n).bind rec r2) []
        (h1.append r2 rec.length) s) ∨
      (∃ m h2, h1.due cfg.k ∧ Evicts cfg.k (h1.append r2 rec.length) false ((v.drop n).bind rec r2) m ∧
        Running cfg g (((v.drop n).bind rec r2).drop m) (((v.drop n).bind rec r2).drop m) [] h2 s ∧
        h2.sinceCkpt = 0) ∨
      (Mishap s.history ∧ ∃ m h2 d', (m = 0 ∨ m < ((v.drop n).bind rec r2).entries.length) ∧
        Running cfg g d' (((v.drop n).bind rec r2).drop m) [] h2 s))

theorem Running.allocated {s : LogWorld} (hs : Running cfg g d v [] h s) {gap : Nat}
    (hgap : s.top + 1 + gap < 2 ^ 64) :
    Running cfg g d v [s.top + 1 + gap] h (s.allocated gap) := by
  obtain ⟨hl, hram, hserves⟩ := hs
  have hlater : Live cfg g d v [] (s.allocated gap) :=
    hl.later rfl rfl (by simp only [World.allocated]; omega) hgap List.suffix_rfl
  obtain ⟨run, r, hf⟩ := hl.durable
  refine ⟨{ hlater with reserved := ?_ }, hram, hserves⟩
  intro i hi
  rw [List.mem_singleton] at hi
  subst hi
  have hbelow := hl.below
  refine ⟨by omega, le_rfl, ?_⟩
  by_contra hb
  have := hf.ids _ hb
  omega

theorem Running.unreserve {s : LogWorld} (hs : Running cfg g d v res h s) :
    Running cfg g d v [] h s :=
  ⟨{ hs.1 with reserved := nofun }, hs.2⟩

theorem Spec.readHandle {P : LogWorld → Prop} (hram : ∀ s, P s → s.ram = some h) :
    Spec faithful P Containers.handle
      ⟨fun a s => a = h ∧ P s, fun _ _ => False, fun _ => False⟩ :=
  Spec.handle hram fun _ hs => ⟨rfl, hs⟩

-- `full` is so if the store refuses the entry at first.
theorem logringAppend_spec (hcfg : cfg.Valid) (rec : List UInt8) (full : Prop) :
    Spec faithful
      (fun s => Running cfg g d v [] h s ∧
        (s.Refuses cfg.toStoreCfg v.frontier (clogEntryHdr + rec.length) ↔ full))
      (logringAppend cfg rec)
      ⟨fun id s => id = v.frontier ∧ rec.length ≤ cfg.maxRecord ∧ Appended cfg g v h rec full s,
        fun _ s => ∃ n d' h', (n = 0 ∨ n < v.entries.length) ∧
          (Made cfg.k v h full n h' ∨ Mishap s.history) ∧ Running cfg g d' (v.drop n) [] h' s,
        AppendCut cfg g v rec⟩ := by
  refine (Spec.readHandle (h := h) fun s hs => hs.1.2.1).bind (fun a => ?_) (fun _ _ h => h.elim)
    (fun _ h => h.elim)
  refine Spec.assuming (φ := a = h ∧ Serves g h v) (fun s hs => ⟨hs.1, hs.2.1.2.2⟩) fun ha => ?_
  obtain ⟨rfl, hserves⟩ := ha
  have hstay : ∀ s, Running cfg g d v [] a s →
      ∃ n d' h', (n = 0 ∨ n < v.entries.length) ∧
        (Made cfg.k v a full n h' ∨ Mishap s.history) ∧ Running cfg g d' (v.drop n) [] h' s := by
    intro s hs
    exact ⟨0, d, a, .inl rfl, .inl (.nothing ..), by rw [LogView.drop_zero]; exact hs⟩
  refine Spec.ite (fun _ => Spec.fail fun s hs => hstay s hs.2.1) fun hlen => ?_
  have hrec : rec.length ≤ cfg.maxRecord := by omega
  have halloc : Spec faithful
      (fun s => a = a ∧ Running cfg g d v [] a s ∧
        (s.Refuses cfg.toStoreCfg v.frontier (clogEntryHdr + rec.length) ↔ full)) blobDbAllocId
      ⟨fun r2 s => (r2 = 0 ∧ Running cfg g d v [] a s) ∨ (r2 ≠ 0 ∧ Running cfg g d v [r2] a s ∧
        (s.Refuses cfg.toStoreCfg v.frontier (clogEntryHdr + rec.length) ↔ full)),
        fun _ _ => False, fun _ => False⟩ := by
    apply Spec.blobDbAllocId
    . intro s gap hs hgap
      exact .inr ⟨by omega, hs.2.1.allocated hgap, hs.2.2⟩
    . intro s hs
      exact .inl ⟨rfl, hs.2.1⟩
  refine halloc.bind (fun r2 => ?_) (fun _ _ h => h.elim) (fun _ h => h.elim)
  refine Spec.ite (fun h0 => ?_) fun h0 => ?_
  . refine Spec.fail fun s hs => ?_
    rcases hs with ⟨_, hs⟩ | ⟨hne, _⟩
    . exact hstay s hs
    . exact absurd h0 hne
  refine Spec.pre (P := fun s => Running cfg g d v [r2] a s ∧
    (s.Refuses cfg.toStoreCfg v.frontier (clogEntryHdr + rec.length) ↔ full)) ?_ fun _ hs => by
    rcases hs with ⟨hz, _⟩ | ⟨_, hs⟩
    . exact absurd hz h0
    . exact hs
  refine Spec.read_bind fun fuel => ?_
  refine Spec.assuming (φ := v.entries.length < fuel + 1) ?_ fun hfuel => ?_
  . intro s hs
    have h1 := hs.2.1.1.chain.segment.length_le
    have h2 := hs.2.1.1.below
    have h3 := hs.1
    omega
  rw [hserves.mirrors.next]
  refine ((bindEvicting_spec hcfg hrec (fuel + 1) d v a full hfuel).pre fun s hs => hs.2).bind
    (fun _ => ?_) ?_ (fun _ h => h)
  . refine Spec.given fun n => Spec.given fun d' => Spec.given fun h1 => ?_
    refine (Spec.readHandle (h := h1) fun s hs => hs.2.2.2.1).bind (fun b => ?_)
      (fun _ _ h => h.elim) (fun _ h => h.elim)
    refine Spec.assuming (φ := b = h1 ∧ Made cfg.k v a full n h1 ∧ (full → h1.sinceCkpt = 0) ∧
      Serves g h1 (v.drop n) ∧ ((v.drop n).bind rec r2).bytes < 2 ^ 32 ∧
      0 < (v.drop n).first ∧ ∀ e ∈ (v.drop n).entries, (v.drop n).first ≤ e.1) ?_ fun hb => ?_
    . intro s hs
      have habove := hs.2.2.2.1.above
      have hchain := hs.2.2.2.1.chain.segment
      rw [LogView.first_bind] at habove hchain
      have hsmall := LiveOn.small hcfg hs.2.2.2.1
      refine ⟨hs.1, hs.2.1, hs.2.2.1, hs.2.2.2.2.2, by omega, by omega,
        fun e he => hchain.le_mem ?_⟩
      exact List.mem_append_left _ he
    obtain ⟨rfl, hmade, hsince, hserves1, hsmall, hpos, hmem⟩ := hb
    have hn := hmade.1
    have hserves2 := hserves1.append hpos hmem rec r2
    have hset : Spec faithful
        (fun s => b = b ∧ Made cfg.k v a full n b ∧ (full → b.sinceCkpt = 0) ∧
          Live cfg g d' ((v.drop n).bind rec r2) [] s ∧ s.ram = some b ∧ Serves g b (v.drop n))
        (setHandle (b.append r2 rec.length))
        ⟨fun _ => Running cfg g d' ((v.drop n).bind rec r2) [] (b.append r2 rec.length),
          fun _ _ => False, fun _ => False⟩ :=
      Spec.setHandle fun s hs => ⟨hs.2.2.2.1, rfl, hserves2⟩
    refine hset.bind (fun _ => ?_) (fun _ _ h => h.elim) (fun _ h => h.elim)
    -- the checkpoint, if one is due
    have hck : Spec faithful
        (Running cfg g d' ((v.drop n).bind rec r2) [] (b.append r2 rec.length))
        (Proc.when (decide (b.tailId = 0 ∨ cfg.k ≤ (b.append r2 rec.length).sinceCkpt.toNat)) do
          let _ ← Proc.attempt (checkpoint cfg false)
          pure ())
        ⟨fun _ => Appended cfg g v a rec full, fun _ _ => False, AppendCut cfg g v rec⟩ := by
      unfold Proc.when
      refine Spec.ite (fun hdue => ?_) fun hdue => ?_
      . have hdue : b.due cfg.k := by simpa [Logring.due, Logring.append] using hdue
        refine (checkpoint_spec hcfg false).attempt.bind (fun o => ?_) (fun _ _ h => h.elim) ?_
        . cases o with
          | ok u =>
            refine Spec.ret fun s hs => ?_
            obtain ⟨m, h2, hev, hrun, h0⟩ := hs
            exact ⟨n, r2, b, hmade, hsince, hserves1, hserves2, hsmall, .inr (.inl ⟨m, h2, hdue, hev, hrun, h0⟩)⟩
          | error e =>
            refine Spec.ret fun s hs => ?_
            obtain ⟨hmis, m, h2, hm, hrun⟩ := hs
            exact ⟨n, r2, b, hmade, hsince, hserves1, hserves2, hsmall, .inr (.inr ⟨hmis, m, h2, d', hm, hrun⟩)⟩
        . intro s hs
          obtain ⟨d2, hd2, hcut⟩ := hs
          refine ⟨d2, hd2, fun hc => ?_⟩
          obtain ⟨m, hm, hdm⟩ := hcut hc
          have hlen2 : ((v.drop n).bind rec r2).entries.length = v.entries.length - n + 1 := by
            simp [LogView.bind, LogView.drop]
          rw [LogView.drop_bind hn, LogView.drop_drop] at hdm
          exact .inr ⟨n + m, r2, by omega, hdm⟩
      . refine Spec.ret fun s hs => ?_
        refine ⟨n, r2, b, hmade, hsince, hserves1, hserves2, hsmall, .inl ⟨?_, d', hs⟩⟩
        simpa [Logring.due, Logring.append] using hdue
    refine hck.bind (fun _ => ?_) (fun _ _ h => h.elim) (fun _ h => h)
    exact Spec.ret fun s hs => ⟨hserves1.mirrors.next, hrec, hs⟩
  . intro e s hs
    obtain ⟨n, d', h', h1, h2, h3⟩ := hs
    exact ⟨n, d', h', h1, h2, h3.unreserve⟩

/-! Reset -/

-- What is left of the log when power is lost in a reset: some of its entries, or none.
def ResetCut (cfg : LogCfg) (g : LogId) (v : LogView) (s : LogWorld) : Prop :=
  ∃ d', Durable cfg g d' s ∧ (Calm s.history →
    (∃ n, (n = 0 ∨ n < v.entries.length) ∧ d' = v.drop n) ∨
      d'.entries = [] ∧ v.frontier < d'.frontier)

theorem shrink_spec (hcfg : cfg.Valid) :
    ∀ (fuel : Nat) (d v : LogView) (h : Logring), v.entries.length < fuel →
      Spec faithful (Running cfg g d v [] h) (shrink cfg fuel)
        ⟨fun _ s => ∃ n d' h', (n = 0 ∨ n < v.entries.length) ∧
          (v.drop n).entries.length ≤ 1 ∧ Running cfg g d' (v.drop n) [] h' s,
        fun _ s => ∃ n d' h', (n = 0 ∨ n < v.entries.length) ∧ Running cfg g d' (v.drop n) [] h' s,
        ResetCut cfg g v⟩ := by
  intro fuel
  induction fuel with
  | zero =>
    intro _ _ _ hlen
    omega
  | succ fuel ih =>
    intro d v h hlen
    refine (Spec.readHandle (h := h) fun s hs => hs.2.1).bind (fun a => ?_) (fun _ _ h => h.elim)
      (fun _ h => h.elim)
    refine Spec.assuming (φ := a = h ∧ Serves g h v ∧ ∀ e ∈ v.entries, g.root < e.1 ∧
      v.entries.Pairwise fun x y => x.1 < y.1) ?_ fun ha => ?_
    . intro s hs
      refine ⟨hs.1, hs.2.2.2, fun e he => ⟨?_, hs.2.1.chain.segment.ascending⟩⟩
      have h1 := hs.2.1.above
      have h2 := hs.2.1.chain.segment.le_mem he
      omega
    obtain ⟨rfl, hserves, hids⟩ := ha
    refine Spec.ite (fun hc => ?_) fun hc => ?_
    . refine ((checkpoint_spec hcfg true).pre fun s hs => hs.2).bind (fun _ => ?_) ?_ ?_
      . refine Spec.given fun n => Spec.given fun h' => ?_
        refine Spec.assuming (φ := Evicts cfg.k a true v n) (fun s hs => hs.1) fun hn => ?_
        obtain ⟨hpos, hlt, _⟩ := hn.forced hcfg (hserves.long hc.1 hc.2)
        have hrest := ih (v.drop n) (v.drop n) h' (by
          simp only [LogView.drop, List.length_drop]
          omega)
        refine (hrest.pre fun s hs => hs.2.1).conseq (fun _ h => h) ?_ ?_ ?_
        . intro u s hs
          obtain ⟨m, d', h2, h3, h4, h5⟩ := hs
          rw [LogView.drop_drop] at h4 h5
          exact ⟨n + m, d', h2, LogView.drop_small (.inr hlt) h3, h4, h5⟩
        . intro e s hs
          obtain ⟨m, d', h2, h3, h4⟩ := hs
          rw [LogView.drop_drop] at h4
          exact ⟨n + m, d', h2, LogView.drop_small (.inr hlt) h3, h4⟩
        . intro s hs
          obtain ⟨d', h1, h2⟩ := hs
          refine ⟨d', h1, fun hcalm => (h2 hcalm).imp ?_ fun h => h⟩
          rintro ⟨m, h3, h4⟩
          rw [LogView.drop_drop] at h4
          exact ⟨n + m, LogView.drop_small (.inr hlt) h3, h4⟩
      . intro e s hs
        obtain ⟨_, n, h', h1, h2⟩ := hs
        exact ⟨n, d, h', h1, h2⟩
      . intro s hs
        obtain ⟨d', h1, h2⟩ := hs
        exact ⟨d', h1, fun hc => .inl (h2 hc)⟩
    . refine Spec.ret fun s hs => ⟨0, d, a, .inl rfl, ?_, by rw [LogView.drop_zero]; exact hs.2⟩
      rw [LogView.drop_zero]
      rw [hserves.mirrors.head, hserves.mirrors.tail] at hc
      rcases hv : v.entries with _ | ⟨e, _ | ⟨e', es⟩⟩
      . simp
      . simp
      . exfalso
        apply hc
        have hne : v.entries ≠ [] := by simp [hv]
        have he := hids e (by simp [hv])
        obtain ⟨pre, last, hlast⟩ := (List.eq_nil_or_concat v.entries).resolve_left hne
        rw [List.concat_eq_append] at hlast
        have hhead : v.headId = e.1 := by simp [LogView.headId, hv]
        have htail : v.tailId = last.1 := LogView.tailId_snoc hlast
        have hlt : e.1 < last.1 := by
          cases pre with
          | nil => simp [hv] at hlast
          | cons p pre =>
            have hp : p = e := by
              have := hlast.symm.trans hv
              simp only [List.cons_append, List.cons.injEq] at this
              exact this.1
            have hpw := he.2
            rw [hlast, List.cons_append, List.pairwise_cons, hp] at hpw
            exact hpw.1 last (by simp)
        omega

-- A log of at most one entry starts and ends there.
theorem LogView.tail_first (hlen : v.entries.length ≤ 1) (hne : v.entries ≠ []) :
    v.tailId = v.first := by
  match hv : v.entries with
  | [] => exact absurd hv hne
  | [e] =>
    rw [LogView.tailId_single hv]
    simp [LogView.first, hv]
  | e :: e' :: es => simp [hv] at hlen

theorem Running.commits_empty (hcfg : cfg.Valid) {s : LogWorld} {first : Nat}
    (hs : Running cfg g d v [first] h s) (hlen : v.entries.length ≤ 1) :
    Commits cfg g d v ⟨[], first⟩ v.entries (h.emptied first) h.tailId
      (if h.tailId ≠ 0 then h.nextFree else 0) [] (s.setRam (some (h.emptied first))) := by
  obtain ⟨hl, _, hserves⟩ := hs
  obtain ⟨hfirst, htop, hfree⟩ := hl.reserved first List.mem_cons_self
  obtain ⟨run, r, hf⟩ := hl.durable
  have hle := hl.chain.le
  have habove := hl.above
  have hlt := hf.top_lt
  have hk := hcfg.k_pos
  have hmir := hserves.mirrors
  have htail : v.tailId ≠ 0 → v.entries ≠ [] ∧ v.tailId = v.first := by
    intro h0
    have hne : v.entries ≠ [] := fun hn => h0 (LogView.tailId_nil hn)
    exact ⟨hne, LogView.tail_first hlen hne⟩
  refine
    { durable := hl.durable
      was := fun hc => (hl.in_step hc).1
      chain := ⟨rfl, hfree⟩
      above := by simp only [LogView.first, startOf_nil]; omega
      below := htop
      ahead := .inr ?_
      reserved := nofun
      ram := rfl
      serves := ⟨hserves.root, hserves.epoch, hserves.capacity, rfl, rfl, rfl, rfl, rfl⟩
      fits := ?_
      detached := ⟨?_, by omega, ?_⟩
      clean := ?_
      idle := fun _ _ h0 => absurd rfl h0 }
  . rcases hl.ahead with ⟨_, _, hfr⟩ | hlt'
    . simp only [LogView.first, startOf_nil]
      omega
    . simp only [LogView.first, startOf_nil]
      omega
  . rw [hmir.tail, hmir.next]
    have hbelow := hl.below
    by_cases h0 : v.tailId = 0
    . rw [h0]
      simp
    . rw [if_pos h0]
      have := (htail h0).2
      omega
  . intro h0
    have h0 : v.tailId = 0 := hmir.tail.symm.trans h0
    rcases List.eq_nil_or_concat v.entries with hnil | ⟨pre, e, he⟩
    . exact hnil
    . rw [List.concat_eq_append] at he
      rw [LogView.tailId_snoc he] at h0
      have := hl.chain.segment.le_mem (c := e) (by simp [he])
      omega
  . intro h0
    have h0 : v.tailId ≠ 0 := fun hz => h0 (hmir.tail.trans hz)
    obtain ⟨hne, heq⟩ := htail h0
    simp only [Logring.toRoot, hmir.tail, hmir.next, heq]
    rw [if_pos (by omega)]
    exact ⟨habove, by simp only [LogView.first, startOf_nil]; exact hfirst.le, v.frontier,
      hl.chain.segment, .inl rfl⟩
  . intro hc id hid hb
    rcases (hl.in_step hc).2 id hid hb with hm | ⟨_, hm⟩ | hu
    . exact .inr (.inl hm)
    . cases hm
    . exact .inr (.inr hu)

theorem logringReset_spec (hcfg : cfg.Valid) :
    Spec faithful (Running cfg g d v [] h) (logringReset cfg)
      ⟨fun _ s => ∃ first h', v.frontier < first ∧
        Running cfg g ⟨[], first⟩ ⟨[], first⟩ [] h' s,
        fun _ s => ∃ d' v' h', Running cfg g d' v' [] h' s ∧
          (Calm s.history → ∃ n, (n = 0 ∨ n < v.entries.length) ∧ v' = v.drop n),
        ResetCut cfg g v⟩ := by
  refine Spec.read_bind fun fuel => ?_
  refine Spec.assuming (φ := v.entries.length < fuel + 1) ?_ fun hfuel => ?_
  . intro s hs
    have h1 := hs.2.1.chain.segment.length_le
    have h2 := hs.2.1.below
    have h3 := hs.1
    omega
  refine ((shrink_spec hcfg (fuel + 1) d v h hfuel).pre fun s hs => hs.2).bind (fun _ => ?_) ?_
    (fun _ h => h)
  . refine Spec.given fun n => Spec.given fun d' => Spec.given fun h1 => ?_
    refine Spec.assuming (φ := (n = 0 ∨ n < v.entries.length) ∧ (v.drop n).entries.length ≤ 1)
      (fun s hs => ⟨hs.1, hs.2.1⟩) fun hn => ?_
    obtain ⟨hn, hlen⟩ := hn
    refine Spec.pre (P := Running cfg g d' (v.drop n) [] h1) ?_ fun s hs => hs.2.2
    refine (Spec.readHandle (h := h1) fun s hs => hs.2.1).bind (fun a => ?_)
      (fun _ _ h => h.elim) (fun _ h => h.elim)
    refine Spec.assuming (φ := a = h1 ∧ Serves g h1 (v.drop n)) (fun s hs => ⟨hs.1, hs.2.2.2⟩)
      fun ha => ?_
    obtain ⟨rfl, hserves⟩ := ha
    have halloc : Spec faithful (fun s => a = a ∧ Running cfg g d' (v.drop n) [] a s) blobDbAllocId
        ⟨fun r2 s => (r2 = 0 ∧ Running cfg g d' (v.drop n) [] a s) ∨
          (r2 ≠ 0 ∧ Running cfg g d' (v.drop n) [r2] a s), fun _ _ => False, fun _ => False⟩ := by
      apply Spec.blobDbAllocId
      . intro s gap hs hgap
        exact .inr ⟨by omega, hs.2.allocated hgap⟩
      . intro s hs
        exact .inl ⟨rfl, hs.2⟩
    refine halloc.bind (fun first => ?_) (fun _ _ h => h.elim) (fun _ h => h.elim)
    refine Spec.ite (fun h0 => ?_) fun h0 => ?_
    . refine Spec.fail fun s hs => ?_
      rcases hs with ⟨_, hs⟩ | ⟨hne, _⟩
      . exact ⟨d', _, a, hs, fun _ => ⟨n, hn, rfl⟩⟩
      . exact absurd h0 hne
    refine Spec.pre (P := Running cfg g d' (v.drop n) [first] a) ?_ fun _ hs => by
      rcases hs with ⟨hz, _⟩ | ⟨_, hs⟩
      . exact absurd hz h0
      . exact hs
    refine Spec.assuming (φ := v.frontier < first)
      (fun s hs => (hs.1.reserved first List.mem_cons_self).1) fun hfirst => ?_
    have hset : Spec faithful (Running cfg g d' (v.drop n) [first] a) (setHandle (a.emptied first))
        ⟨fun _ => Commits cfg g d' (v.drop n) ⟨[], first⟩ (v.drop n).entries (a.emptied first)
          a.tailId (if a.tailId ≠ 0 then a.nextFree else 0) [], fun _ _ => False,
          fun _ => False⟩ :=
      Spec.setHandle fun s hs => hs.commits_empty hcfg hlen
    have hserves' : Serves g (a.emptied first) ⟨[], first⟩ :=
      ⟨hserves.root, hserves.epoch, hserves.capacity, rfl, rfl, rfl, rfl, rfl⟩
    refine hset.bind (fun _ => ?_) (fun _ _ h => h.elim) (fun _ h => h.elim)
    refine (rootWrite_spec hcfg).bind (fun _ => ?_) ?_ ?_
    . unfold Proc.when
      refine Spec.ite (fun hc => ?_) fun hc => ?_
      . have htail : a.tailId ≠ 0 := by simpa using hc
        have hdel := @runDelete_spec cfg g ⟨[], first⟩ (v.drop n).entries
          ((a.emptied first).toRoot a.tailId (if a.tailId ≠ 0 then a.nextFree else 0))
          (some (a.emptied first)) [] htail
        simp only [Logring.toRoot] at hdel
        rw [if_pos htail] at hdel ⊢
        refine hdel.conseq (fun _ h => h) ?_ (fun _ _ h => h.elim) ?_
        . intro _ s hs
          exact ⟨first, _, hfirst, hs.live, hs.ram_eq, hserves'⟩
        . intro s hs
          exact ⟨_, hs, fun _ => .inr ⟨rfl, hfirst⟩⟩
      . have htail : a.tailId = 0 := by simpa using hc
        refine Spec.ret fun s hs => ?_
        have hnil : (v.drop n).entries = [] := hs.1.detached.none_left htail
        rw [hnil] at hs
        exact ⟨first, _, hfirst, hs.pending.live, hs.2.1, hserves'⟩
    . intro e s hs
      exact ⟨d', _, _, ⟨hs.1, hs.2.1, hserves'⟩, fun hc => absurd rfl (hs.2.2.2 hc)⟩
    . intro s hs
      obtain ⟨d2, hd2, hcut⟩ := hs
      refine ⟨d2, hd2, fun hc => ?_⟩
      rcases hcut hc with rfl | rfl
      . exact .inl ⟨n, hn, rfl⟩
      . exact .inr ⟨rfl, hfirst⟩
  . intro e s hs
    obtain ⟨n, d', h', h1, h2⟩ := hs
    exact ⟨d', _, h', h2, fun _ => ⟨n, h1, rfl⟩⟩

/-! Create -/

-- What a store promises at any time.
structure Sound (cfg : StoreCfg) (w : LogWorld) : Prop where
  ids : ∀ id, w.blobs id ≠ none → id ≤ w.top
  top_lt : w.top < 2 ^ 64
  tallied : Tallied cfg w.blobs w.used

theorem logringCreate_spec (capacityBytes rand : UInt32) :
    Spec faithful (Sound cfg.toStoreCfg) (logringCreate cfg capacityBytes rand)
      ⟨fun root s => ∃ g first, g.root = root ∧ g.capacityBytes = capacityBytes ∧
        Durable cfg g ⟨[], first⟩ s, fun _ _ => True, fun _ => True⟩ := by
  refine Spec.ite (fun _ => Spec.fail fun _ _ => trivial) fun _ => ?_
  have halloc : ∀ P : LogWorld → Nat → Prop,
      (∀ s gap, Sound cfg.toStoreCfg s → P (s.allocated gap) (s.top + 1 + gap)) →
      (∀ s, Sound cfg.toStoreCfg s → P { s with allocs := s.allocs.tail } 0) →
      Spec faithful (Sound cfg.toStoreCfg) blobDbAllocId
        ⟨fun id s => Sound cfg.toStoreCfg s ∧ P s id, fun _ _ => False, fun _ => False⟩ := by
    intro P hok hfail
    apply Spec.blobDbAllocId
    . intro s gap hs hgap
      refine ⟨⟨fun id hid => ?_, hgap, hs.tallied⟩, hok s gap hs⟩
      have := hs.ids id hid
      simp only [World.allocated]
      omega
    . intro s hs
      exact ⟨⟨hs.ids, hs.top_lt, hs.tallied⟩, hfail s hs⟩
  refine (halloc (fun s root => root ≠ 0 → root ≤ s.top ∧ ∀ id, root ≤ id → s.blobs id = none)
    ?_ fun _ _ h0 => absurd rfl h0).bind (fun root => ?_) (fun _ _ h => h.elim) (fun _ h => h.elim)
  . intro s gap hs _
    refine ⟨le_rfl, fun id hid => ?_⟩
    by_contra hb
    have := hs.ids id hb
    omega
  have hsecond : Spec faithful
      (fun s => Sound cfg.toStoreCfg s ∧ (root ≠ 0 → root ≤ s.top ∧ ∀ id, root ≤ id → s.blobs id = none))
      blobDbAllocId
      ⟨fun first s => Sound cfg.toStoreCfg s ∧ (root ≠ 0 → first ≠ 0 → root < first ∧ first ≤ s.top ∧
        ∀ id, root ≤ id → s.blobs id = none), fun _ _ => False, fun _ => False⟩ := by
    apply Spec.blobDbAllocId
    . intro s gap hs hgap
      refine ⟨⟨fun id hid => ?_, hgap, hs.1.tallied⟩, fun h0 _ => ?_⟩
      . have := hs.1.ids id hid
        simp only [World.allocated]
        omega
      . have := (hs.2 h0).1
        exact ⟨by omega, le_rfl, (hs.2 h0).2⟩
    . intro s hs
      exact ⟨⟨hs.1.ids, hs.1.top_lt, hs.1.tallied⟩, fun _ h0 => absurd rfl h0⟩
  refine hsecond.bind (fun first => ?_) (fun _ _ h => h.elim) (fun _ h => h.elim)
  refine Spec.ite (fun _ => Spec.fail fun _ _ => trivial) fun h0 => ?_
  rw [not_or] at h0
  extract_lets epoch
  have hwrite : Spec faithful
      (fun s => Sound cfg.toStoreCfg s ∧ (root ≠ 0 → first ≠ 0 → root < first ∧ first ≤ s.top ∧
        ∀ id, root ≤ id → s.blobs id = none))
      (rootWrite cfg ⟨root, 0, first, 0, epoch, capacityBytes, 0, 0, 0⟩ 0 0)
      ⟨fun _ s => Durable cfg ⟨root, epoch, capacityBytes⟩ ⟨[], first⟩ s, fun _ _ => True,
        fun _ => True⟩ := by
    apply Spec.blobDbUpdate
    . intro s hs hfit
      obtain ⟨hsound, hnew⟩ := hs
      obtain ⟨hlt, htop, hfree⟩ := hnew h0.1 h0.2
      have hroot := h0.1
      have htoplt := hsound.top_lt
      refine ⟨[], Logring.toRoot ⟨root, 0, first, 0, epoch, capacityBytes, 0, 0, 0⟩ 0 0, ?_⟩
      refine
        { root_pos := Nat.pos_of_ne_zero hroot
          root_bound := ?_
          fits := ?_
          same_epoch := rfl
          same_capacity := rfl
          chain := ⟨rfl, ?_⟩
          above := hlt
          below := htop
          top_lt := hsound.top_lt
          describes := .fresh rfl rfl
          detached := ⟨fun _ => rfl, Nat.zero_le _, fun hn => absurd rfl hn⟩
          ids := ?_
          tallied := ?_
          clean := ?_ }
      . rw [World.edit_blobs s _ _ (t := .done) rfl, Function.update_self]
      . simp only [ClogRoot.Fits, Logring.toRoot]
        refine ⟨?_, by decide, by decide, by decide⟩
        simp only [ne_eq, not_true_eq_false, if_false]
        omega
      . rw [World.edit_blobs s _ _ (t := .done) rfl, Function.update_of_ne hlt.ne']
        exact hfree first hlt.le
      . intro id hid
        rw [World.edit_blobs s _ _ (t := .done) rfl] at hid
        by_cases he : id = root
        . subst he
          exact hlt.le.trans htop
        . rw [Function.update_of_ne he] at hid
          exact hsound.ids id hid
      . rw [World.edit_blobs s _ _ (t := .done) rfl, World.edit_used s _ _ (t := .done) rfl]
        exact hsound.tallied.update hfit
      . intro _ id hid hb
        rw [World.edit_blobs s _ _ (t := .done) rfl, Function.update_of_ne (Nat.ne_of_gt hid)] at hb
        exact absurd (hfree id (Nat.le_of_lt hid)) hb
    . exact fun _ _ _ _ _ => trivial
    . exact fun _ _ _ _ => trivial
    . exact fun _ _ _ => trivial
  refine hwrite.bind (fun _ => ?_) (fun _ _ h => h) (fun _ h => h)
  exact Spec.ret fun s hs => ⟨⟨root, epoch, capacityBytes⟩, first, rfl, rfl, hs⟩

end KeyValueDb.Containers
