import KeyValueDb.Containers.LogringChain

/-!
What binding an entry, deleting one, and writing the root do to a log on flash.
-/

namespace KeyValueDb.Containers

-- What the build asserts of its constants. A partition has at most 65535 sectors of at most 64 KiB.
structure LogCfg.Valid (cfg : LogCfg) : Prop where
  root_fits : clogRootLen ≤ cfg.maxPayload
  len_field : cfg.maxPayload ≤ 65535
  single_slot : cfg.maxPayload ≤ cfg.maxObject
  k_pos : 1 ≤ cfg.k
  k_le : cfg.k ≤ 64
  partition_lt : cfg.partition < 2 ^ 32

variable {cfg : LogCfg}

/-! Entries -/

theorem entryNode_congr {b b' : Blobs} {i : Nat} (h : b' i = b i) :
    entryNode cfg b' i = entryNode cfg b i := by
  simp only [entryNode, h]

theorem entryNode_bound {b : Blobs} {i : Nat} {e : List UInt8 × Nat}
    (h : entryNode cfg b i = some e) : b i ≠ none := by
  intro hb
  rw [entryNode, hb] at h
  cases h

-- The payload behind an entry.
theorem entryNode_some {b : Blobs} {i : Nat} {e : List UInt8 × Nat}
    (h : entryNode cfg b i = some e) :
    ∃ buf, b i = some buf ∧ buf.length ≤ cfg.maxPayload ∧ decodeEntry buf = .ok (e.2, e.1) := by
  unfold entryNode at h
  split at h
  . cases h
  . next buf hb =>
    split at h
    . next hlen =>
      split at h
      . next d hd =>
        cases h
        exact ⟨buf, hb, hlen, hd⟩
      . cases h
    . cases h

theorem decodeEntry_ok {buf : List UInt8} {e : Nat × List UInt8} (h : decodeEntry buf = .ok e) :
    buf.length = clogEntryHdr + e.2.length ∧ e.1 < 2 ^ 64 := by
  unfold decodeEntry at h
  split at h
  . cases h
  . next h1 =>
    split at h
    . cases h
    . cases h
      have h2 := leNat_lt ((buf.drop 0).take 8)
      have h3 : ((buf.drop 0).take 8).length ≤ 8 := List.length_take_le ..
      have h4 : 256 ^ ((buf.drop 0).take 8).length ≤ 256 ^ 8 := Nat.pow_le_pow_right (by decide) h3
      constructor
      . rw [List.length_drop]
        omega
      . exact Nat.lt_of_lt_of_le h2 h4

theorem entryNode_len {b : Blobs} {i : Nat} {e : List UInt8 × Nat}
    (h : entryNode cfg b i = some e) : e.1.length ≤ cfg.maxRecord := by
  obtain ⟨buf, _, hlen, hd⟩ := entryNode_some h
  have hbuf : buf.length = clogEntryHdr + e.1.length := (decodeEntry_ok hd).1
  simp only [LogCfg.maxRecord]
  omega

theorem entryNode_size {b : Blobs} {i : Nat} {e : List UInt8 × Nat}
    (h : entryNode cfg b i = some e) : b.size i = clogEntryHdr + e.1.length := by
  obtain ⟨buf, hb, _, hd⟩ := entryNode_some h
  have := (decodeEntry_ok hd).1
  simpa [Blobs.size, hb] using this

theorem entryNode_image (hcfg : cfg.Valid) {b : Blobs} {i nextId : Nat} {rec : List UInt8}
    (h : b i = some (entryImage nextId rec)) (hid : nextId < 2 ^ 64)
    (hrec : rec.length ≤ cfg.maxRecord) : entryNode cfg b i = some (rec, nextId) := by
  have h1 := hcfg.root_fits
  have h2 := hcfg.len_field
  simp only [clogRootLen] at h1
  simp only [LogCfg.maxRecord, clogEntryHdr] at hrec
  simp only [entryNode, h]
  rw [if_pos (by rw [entryImage_length, clogEntryHdr]; omega),
    decodeEntry_entryImage hid (by omega)]

/-! Views -/

namespace LogView

@[simp]
theorem first_bind (v : LogView) (rec : List UInt8) (r2 : Nat) :
    (v.bind rec r2).first = v.first := by
  simp [LogView.bind, LogView.first, startOf_append]

@[simp]
theorem frontier_drop (v : LogView) (n : Nat) : (v.drop n).frontier = v.frontier := rfl

@[simp]
theorem drop_zero (v : LogView) : v.drop 0 = v := by
  simp [LogView.drop]

theorem drop_drop (v : LogView) (m n : Nat) : (v.drop m).drop n = v.drop (m + n) := by
  simp [LogView.drop, List.drop_drop]

theorem headId_eq {v : LogView} (h : v.entries ≠ []) : v.headId = v.first := by
  unfold LogView.headId LogView.first
  cases hv : v.entries with
  | nil => exact absurd hv h
  | cons e es => rfl

theorem headId_nil {v : LogView} (h : v.entries = []) : v.headId = 0 := by
  simp [LogView.headId, h]

theorem tailId_nil {v : LogView} (h : v.entries = []) : v.tailId = 0 := by
  simp [LogView.tailId, h]

theorem first_nil {v : LogView} (h : v.entries = []) : v.first = v.frontier := by
  simp [LogView.first, h]

theorem tailId_snoc {v : LogView} {pre : List LogEntry} {e : LogEntry}
    (h : v.entries = pre ++ [e]) : v.tailId = e.1 := by
  simp [LogView.tailId, h]

theorem tailId_single {v : LogView} {e : LogEntry} (h : v.entries = [e]) : v.tailId = e.1 := by
  simp [LogView.tailId, h]

theorem tailId_drop {v : LogView} {n : Nat} (h : n < v.entries.length) :
    (v.drop n).tailId = v.tailId := by
  simp only [LogView.tailId, LogView.drop, List.getLast?_drop]
  rw [if_neg (by omega)]

theorem bytes_drop (v : LogView) (n : Nat) :
    v.bytes = ((v.entries.take n).map fun e => e.2.length).sum + (v.drop n).bytes := by
  rw [LogView.bytes, LogView.bytes, LogView.drop, ← List.sum_append, ← List.map_append,
    List.take_append_drop]

@[simp]
theorem bytes_bind (v : LogView) (rec : List UInt8) (r2 : Nat) :
    (v.bind rec r2).bytes = v.bytes + rec.length := by
  simp [LogView.bytes, LogView.bind]

end LogView

/-! Chains -/

theorem Chained.congr {b b' : Blobs} {v : LogView} (h : Chained cfg b v)
    (hsame : ∀ i, v.first ≤ i → i ≤ v.frontier → b' i = b i) : Chained cfg b' v := by
  constructor
  . apply h.segment.congr
    intro c hc
    exact entryNode_congr (hsame c.1 (h.segment.le_mem hc) (h.segment.mem_lt hc).le)
  . rw [hsame _ h.segment.le le_rfl]
    exact h.free

theorem Chained.le {b : Blobs} {v : LogView} (h : Chained cfg b v) : v.first ≤ v.frontier :=
  h.segment.le

theorem Chained.bind (hcfg : cfg.Valid) {b : Blobs} {v : LogView} (h : Chained cfg b v)
    {rec : List UInt8} {r2 : Nat} (hr2 : v.frontier < r2) (hlt : r2 < 2 ^ 64) (hfree : b r2 = none)
    (hrec : rec.length ≤ cfg.maxRecord) :
    Chained cfg (Function.update b v.frontier (some (entryImage r2 rec))) (v.bind rec r2) := by
  have hnode := entryNode_image hcfg (b := Function.update b v.frontier (some (entryImage r2 rec)))
    (Function.update_self ..) hlt hrec
  constructor
  . rw [LogView.first_bind]
    apply Segment.snoc _ hnode hr2
    apply h.segment.congr
    intro c hc
    exact entryNode_congr (Function.update_of_ne (h.segment.mem_lt hc).ne _ _)
  . rw [LogView.bind, Function.update_of_ne hr2.ne']
    exact hfree

-- Where a chain is cut, its rest is a chain again.
theorem Chained.split {b : Blobs} {v : LogView} (h : Chained cfg b v) (n : Nat) :
    Segment (entryNode cfg b) v.first (v.entries.take n) (v.drop n).first ∧
      Chained cfg b (v.drop n) := by
  have hseg := h.segment
  rw [← List.take_append_drop n v.entries, Segment.append_iff] at hseg
  obtain ⟨m, h1, h2⟩ := hseg
  have hm : m = (v.drop n).first := h2.start
  rw [hm] at h1 h2
  exact ⟨h1, h2, h.free⟩

theorem Chained.drop {b : Blobs} {v : LogView} (h : Chained cfg b v) (n : Nat) :
    Chained cfg b (v.drop n) := (h.split n).2

theorem Chained.first_le_drop {b : Blobs} {v : LogView} (h : Chained cfg b v) (n : Nat) :
    v.first ≤ (v.drop n).first := (h.split n).1.le

theorem Chained.bound {b : Blobs} {v : LogView} (h : Chained cfg b v) {e : LogEntry}
    (he : e ∈ v.entries) : b e.1 ≠ none := by
  obtain ⟨n, hn⟩ := h.segment.node_mem he
  exact entryNode_bound hn

/-! Roots -/

theorem Mirrors.fits {h : Logring} {v : LogView} {b : Blobs} {top evictFrom evictTo : Nat}
    (hm : Mirrors h v) (hc : Chained cfg b v) (hv : v.frontier ≤ top) (htop : top < 2 ^ 64)
    (hf : evictFrom < 2 ^ 64) (ht : evictTo < 2 ^ 64) : (h.toRoot evictFrom evictTo).Fits := by
  have hle := hc.le
  have hhead : v.headId ≤ v.frontier := by
    by_cases hnil : v.entries = []
    . rw [LogView.headId_nil hnil]
      omega
    . rw [LogView.headId_eq hnil]
      exact hle
  have htail : v.tailId ≤ v.frontier := by
    rcases List.eq_nil_or_concat v.entries with hnil | ⟨pre, e, he⟩
    . rw [LogView.tailId_nil hnil]
      omega
    . rw [List.concat_eq_append] at he
      rw [LogView.tailId_snoc he]
      exact (hc.segment.mem_lt (by simp [he])).le
  refine ⟨?_, ?_, hf, ht⟩
  . simp only [Logring.toRoot, hm.tail, hm.next]
    split <;> omega
  . simp only [Logring.toRoot, hm.head]
    omega

theorem Mirrors.describes {h : Logring} {v : LogView} {b : Blobs} (hm : Mirrors h v)
    (hc : Chained cfg b v) (hpos : 0 < v.first) (evictFrom evictTo : Nat) :
    (h.toRoot evictFrom evictTo).Describes v := by
  rcases List.eq_nil_or_concat v.entries with hnil | ⟨pre, e, he⟩
  . refine .fresh ?_ ?_
    . simp [Logring.toRoot, hm.head, LogView.headId_nil hnil]
    . simp [Logring.toRoot, hm.tail, hm.next, LogView.tailId_nil hnil, LogView.first_nil hnil]
  . rw [List.concat_eq_append] at he
    have hne : v.entries ≠ [] := by simp [he]
    have htail : v.tailId = e.1 := LogView.tailId_snoc he
    have hle : v.first ≤ e.1 := hc.segment.le_mem (by simp [he])
    refine .counted pre e [] he ?_ ?_ ?_ ?_ ?_
    . simp [Logring.toRoot, hm.head, LogView.headId_eq hne]
    . simp only [Logring.toRoot, hm.head, LogView.headId_eq hne]
      omega
    . simp only [Logring.toRoot, hm.tail, htail]
      rw [if_pos (by omega)]
    . simp [Logring.toRoot, hm.count, he]
    . simp [Logring.toRoot, hm.bytes, LogView.bytes, he]

-- A root still describes the log when another entry is bound.
theorem ClogRoot.Describes.bind {r : ClogRoot} {v : LogView} (h : r.Describes v)
    (rec : List UInt8) (r2 : Nat) : r.Describes (v.bind rec r2) := by
  cases h with
  | fresh hhead hway =>
    exact .fresh hhead (by rw [LogView.first_bind]; exact hway)
  | counted pre w post hsplit hhead hpos hway hcount hbytes =>
    refine .counted pre w (post ++ [(v.frontier, rec)]) ?_ ?_ hpos hway hcount hbytes
    . simp [LogView.bind, hsplit]
    . rw [LogView.first_bind]
      exact hhead

/-! The run of an eviction -/

theorem Detached.mem {root : Nat} {b : Blobs} {v : LogView} {run : List LogEntry} {r : ClogRoot}
    (h : Detached cfg root b v run r) {e : LogEntry} (he : e ∈ run) :
    r.evictFrom ≠ 0 ∧ root < e.1 ∧ e.1 < r.evictTo ∧ e.1 < v.first := by
  have hfrom : r.evictFrom ≠ 0 := by
    intro h0
    rw [h.none_left h0] at he
    cases he
  obtain ⟨hroot, hto, stop, hseg, hstop⟩ := h.left hfrom
  have h1 := hseg.le_mem he
  have h2 := hseg.mem_lt he
  have h3 : stop ≤ r.evictTo := by
    rcases hstop with hs | hs
    . exact hs.le
    . exact hs.2.le
  refine ⟨hfrom, ?_, ?_, ?_⟩ <;> omega

-- It depends on what lies between the root and the log's first entry.
theorem Detached.congr {root : Nat} {b b' : Blobs} {v v' : LogView} {run : List LogEntry}
    {r : ClogRoot} (h : Detached cfg root b v run r) (hfirst : v'.first = v.first)
    (hsame : ∀ i, root < i → i < v.first → b' i = b i) : Detached cfg root b' v' run r := by
  refine ⟨h.none_left, h.short, ?_⟩
  intro hfrom
  obtain ⟨hroot, hto, stop, hseg, hstop⟩ := h.left hfrom
  refine ⟨hroot, hfirst ▸ hto, stop, ?_, ?_⟩
  . apply hseg.congr
    intro c hc
    have := h.mem hc
    exact entryNode_congr (hsame c.1 this.2.1 this.2.2.2)
  . have := hseg.le
    refine hstop.imp id fun hs => ⟨?_, hs.2⟩
    rw [hsame stop (by omega) (by omega)]
    exact hs.1

theorem Detached.delete_other {root : Nat} {b : Blobs} {v : LogView} {run : List LogEntry}
    {r : ClogRoot} (h : Detached cfg root b v run r) {i : Nat} (hi : ∀ e ∈ run, e.1 ≠ i) :
    Detached cfg root (Function.update b i none) v run r := by
  refine ⟨h.none_left, h.short, ?_⟩
  intro hfrom
  obtain ⟨hroot, hto, stop, hseg, hstop⟩ := h.left hfrom
  refine ⟨hroot, hto, stop, ?_, ?_⟩
  . apply hseg.congr
    intro c hc
    exact entryNode_congr (Function.update_of_ne (hi c hc) _ _)
  . refine hstop.imp id fun hs => ⟨?_, hs.2⟩
    by_cases he : stop = i
    . rw [he, Function.update_self]
    . rw [Function.update_of_ne he]
      exact hs.1

theorem Detached.delete_mem {root : Nat} {b : Blobs} {v : LogView} {pre post : List LogEntry}
    {e : LogEntry} {r : ClogRoot} (h : Detached cfg root b v (pre ++ e :: post) r) :
    Detached cfg root (Function.update b e.1 none) v pre r := by
  have hmem := h.mem (e := e) (by simp)
  obtain ⟨hroot, hto, stop, hseg, hstop⟩ := h.left hmem.1
  refine ⟨fun h0 => absurd h0 hmem.1, ?_, ?_⟩
  . have := h.short
    simp only [List.length_append, List.length_cons] at this
    omega
  . intro _
    refine ⟨hroot, hto, e.1, ?_, .inr ⟨Function.update_self .., hmem.2.2.1⟩⟩
    apply hseg.without
    intro i hi
    exact entryNode_congr (Function.update_of_ne hi _ _)

/-! The log on flash -/

theorem Calm.of_suffix {hist hist' : List Event} (h : Calm hist') (hs : hist <:+ hist') :
    Calm hist :=
  fun e he => h e (hs.subset he)

theorem Calm.tail {ev : Event} {hist : List Event} (h : Calm (ev :: hist)) : Calm hist :=
  h.of_suffix (List.suffix_cons ev hist)

theorem Undeleted.later {hist hist' : List Event} {id : Nat} (h : Undeleted hist id)
    (hs : hist <:+ hist') : Undeleted hist' id := by
  obtain ⟨e, err, landed, he, h⟩ := h
  exact ⟨e, err, landed, hs.subset he, h⟩

theorem Clean.later {root : Nat} {b : Blobs} {v : LogView} {run : List LogEntry}
    {hist hist' : List Event} (h : Clean root b v run hist) (hs : hist <:+ hist') :
    Clean root b v run hist' := by
  intro id hid hb
  exact (h id hid hb).imp_right (Or.imp_right fun hu => hu.later hs)

namespace OnFlash

variable {g : LogId} {v : LogView} {run : List LogEntry} {r : ClogRoot} {b : Blobs}
variable {top top' used used' : Nat} {hist hist' : List Event}

-- Nothing but the history and the ids handed out has changed.
theorem later (h : OnFlash cfg g v run r b top used hist) (hh : hist <:+ hist')
    (htop : top ≤ top') (hlt : top' < 2 ^ 64) : OnFlash cfg g v run r b top' used hist' :=
  { h with
    below := h.below.trans htop
    top_lt := hlt
    ids := fun id hid => (h.ids id hid).trans htop
    clean := fun hc => (h.clean (hc.of_suffix hh)).later hh }

theorem ids_update (h : OnFlash cfg g v run r b top used hist) {i : Nat}
    {data : Option (List UInt8)} (hi : i ≤ top) (id : Nat)
    (hid : Function.update b i data id ≠ none) : id ≤ top := by
  by_cases he : id = i
  . exact he ▸ hi
  . rw [Function.update_of_ne he] at hid
    exact h.ids id hid

theorem root_update (h : OnFlash cfg g v run r b top used hist) {i : Nat}
    {data : Option (List UInt8)} (hi : g.root < i) :
    Function.update b i data g.root = some (rootImage r) := by
  rw [Function.update_of_ne hi.ne]
  exact h.root_bound

-- The reserved id is bound.
theorem bind (hcfg : cfg.Valid) (h : OnFlash cfg g v run r b top used hist) {rec : List UInt8}
    {r2 : Nat} (hr2 : v.frontier < r2) (htop : r2 ≤ top) (hfree : b r2 = none)
    (hrec : rec.length ≤ cfg.maxRecord)
    (htally : Tallied cfg.toStoreCfg
      (Function.update b v.frontier (some (entryImage r2 rec))) used')
    (hh : hist <:+ hist') :
    OnFlash cfg g (v.bind rec r2) run r
      (Function.update b v.frontier (some (entryImage r2 rec))) top used' hist' := by
  have hle := h.chain.le
  have habove := h.above
  have htoplt := h.top_lt
  refine
    { root_pos := h.root_pos
      root_bound := h.root_update (by omega)
      fits := h.fits
      same_epoch := h.same_epoch
      same_capacity := h.same_capacity
      chain := h.chain.bind hcfg hr2 (by omega) hfree hrec
      above := by rw [LogView.first_bind]; exact h.above
      below := htop
      top_lt := h.top_lt
      describes := h.describes.bind rec r2
      detached := ?_
      ids := h.ids_update h.below
      tallied := htally
      clean := ?_ }
  . apply h.detached.congr (LogView.first_bind ..)
    intro i _ hi
    exact Function.update_of_ne (by omega) _ _
  . intro hc id hid hb
    by_cases he : id = v.frontier
    . exact .inl ⟨rec, by simp [LogView.bind, he]⟩
    . rw [Function.update_of_ne he] at hb
      refine ((h.clean (hc.of_suffix hh)).later hh id hid hb).imp_left ?_
      intro ⟨rec', hmem⟩
      exact ⟨rec', by simp [LogView.bind, hmem]⟩

-- A blob past the end of the log is bound.
theorem bind_past (h : OnFlash cfg g v run r b top used hist) {i : Nat} {data : List UInt8}
    (hi : v.frontier < i) (htop : i ≤ top)
    (htally : Tallied cfg.toStoreCfg (Function.update b i (some data)) used')
    (hh : ¬ Calm hist') : OnFlash cfg g v run r (Function.update b i (some data)) top used' hist' := by
  have hle := h.chain.le
  have habove := h.above
  refine { h with
    root_bound := h.root_update (by omega)
    chain := h.chain.congr ?_
    detached := h.detached.congr rfl ?_
    ids := h.ids_update htop
    tallied := htally
    clean := fun hc => absurd hc hh }
  . exact fun j _ hj => Function.update_of_ne (by omega) _ _
  . exact fun j _ hj => Function.update_of_ne (by omega) _ _

theorem delete_other (h : OnFlash cfg g v run r b top used hist) {i : Nat} (hroot : g.root < i)
    (hi : i < v.first) (hrun : ∀ e ∈ run, e.1 ≠ i)
    (htally : Tallied cfg.toStoreCfg (Function.update b i none) used')
    (hh : hist <:+ hist') :
    OnFlash cfg g v run r (Function.update b i none) top used' hist' := by
  have hle := h.chain.le
  have hbelow := h.below
  refine { h with
    root_bound := h.root_update hroot
    chain := h.chain.congr fun j hj _ => Function.update_of_ne (by omega) _ _
    detached := h.detached.delete_other hrun
    ids := h.ids_update (by omega)
    tallied := htally
    clean := ?_ }
  intro hc id hid hb
  by_cases he : id = i
  . rw [he, Function.update_self] at hb
    exact absurd rfl hb
  . rw [Function.update_of_ne he] at hb
    exact (h.clean (hc.of_suffix hh)).later hh id hid hb

-- What follows a deleted entry of the run is lost: only what could not be deleted may follow it.
theorem delete_mem {pre post : List LogEntry} {e : LogEntry}
    (h : OnFlash cfg g v (pre ++ e :: post) r b top used hist)
    (htally : Tallied cfg.toStoreCfg (Function.update b e.1 none) used')
    (hh : hist <:+ hist') (hpost : Calm hist' → ∀ c ∈ post, Undeleted hist' c.1) :
    OnFlash cfg g v pre r (Function.update b e.1 none) top used' hist' := by
  have hmem := h.detached.mem (e := e) (by simp)
  have hle := h.chain.le
  have hbelow := h.below
  refine { h with
    root_bound := h.root_update hmem.2.1
    chain := h.chain.congr fun j hj _ => Function.update_of_ne (by omega) _ _
    detached := h.detached.delete_mem
    ids := h.ids_update (by omega)
    tallied := htally
    clean := ?_ }
  intro hc id hid hb
  by_cases he : id = e.1
  . rw [he, Function.update_self] at hb
    exact absurd rfl hb
  . rw [Function.update_of_ne he] at hb
    refine ((h.clean (hc.of_suffix hh)).later hh id hid hb).imp_right ?_
    rintro (⟨rec, hrec⟩ | hu)
    . rw [List.mem_append, List.mem_cons] at hrec
      rcases hrec with hrec | hrec | hrec
      . exact .inl ⟨rec, hrec⟩
      . exact absurd (congrArg Prod.fst hrec) he
      . exact .inr (hpost hc _ hrec)
    . exact .inr hu

-- The root is written for a view whose chain is there.
theorem rewrite (h : OnFlash cfg g v run r b top used hist) {w : LogView}
    {run' : List LogEntry} {r' : ClogRoot} (hchain : Chained cfg b w) (habove : g.root < w.first)
    (hbelow : w.frontier ≤ top) (hfits : r'.Fits) (hep : r'.epoch = g.epoch)
    (hcap : r'.capacityBytes = g.capacityBytes) (hdesc : r'.Describes w)
    (hdet : Detached cfg g.root b w run' r')
    (htally : Tallied cfg.toStoreCfg (Function.update b g.root (some (rootImage r'))) used')
    (hclean : Calm hist' → Clean g.root b w run' hist') :
    OnFlash cfg g w run' r' (Function.update b g.root (some (rootImage r'))) top used' hist' where
  root_pos := h.root_pos
  root_bound := Function.update_self ..
  fits := hfits
  same_epoch := hep
  same_capacity := hcap
  chain := hchain.congr fun j hj _ => Function.update_of_ne (by omega) _ _
  above := habove
  below := hbelow
  top_lt := h.top_lt
  describes := hdesc
  detached := hdet.congr rfl fun j hj _ => Function.update_of_ne (by omega) _ _
  ids := h.ids_update (h.ids _ (by rw [h.root_bound]; exact nofun))
  tallied := htally
  clean := by
    intro hc id hid hb
    rw [Function.update_of_ne (by omega)] at hb
    exact hclean hc id hid hb

end OnFlash

end KeyValueDb.Containers
