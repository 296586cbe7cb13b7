import Mathlib.Algebra.BigOperators.Group.Finset.Piecewise
import KeyValueDb.BlobDb.IndexCells
import KeyValueDb.BlobDb.Lookup

/-!
A slot index that tells the truth. What it says is relative to the log it believes each bucket to
have, so that the same lemmas speak of an index that is being filled while a bucket is walked.
-/

namespace KeyValueDb.BlobDb

-- The slots of a bucket and where they end.
structure Believed where
  slots : List Entry
  fin : Nat

-- The last slot that carries `id`, intact or not.
def lastOf (id : Nat) (es : List Entry) : Option Entry := lastSat (fun x => x.head.id == id) es

structure Indexes (cfg : Cfg) (log : Nat → Believed) (t : SlotIndex) : Prop where
  ordered : t.Ordered cfg
  buckets : t.nBuckets = 0 ∨ t.nBuckets = cfg.nBuckets
  known : ∀ id off, t.Cell id off → t.cursorOf (cfg.idToBucket id) ≠ none
  cursor : ∀ bid fin, t.cursorOf bid = some fin → (log bid).fin = fin ∧ (log bid).slots.length < 65536
  cell : ∀ id off, t.Cell id off →
    ∃ x, lastOf id (log (cfg.idToBucket id)).slots = some x ∧ x.off = off

section

variable {cfg : Cfg} {log log' : Nat → Believed} {t : SlotIndex} {bid : Nat}

theorem cursorOf_on {fin : Nat} (h : t.cursorOf bid = some fin) :
    t.on bid = true ∧ t.cursor bid = fin ∧ fin ≠ 0 := by
  unfold SlotIndex.cursorOf at h
  split at h
  . cases h
  . next hn =>
    injection h with h
    rw [Bool.or_eq_true, not_or] at hn
    subst h
    exact ⟨by simpa using hn.1, rfl, by simpa using hn.2⟩

theorem cursorOf_some {fin : Nat} (hon : t.on bid = true) (hc : t.cursor bid = fin) (hf : fin ≠ 0) :
    t.cursorOf bid = some fin := by
  unfold SlotIndex.cursorOf
  rw [hc]
  simp [hon, hf]

theorem on_lt (h : t.on bid = true) : bid < t.nBuckets := by
  unfold SlotIndex.on at h
  simp only [Bool.and_eq_true, decide_eq_true_eq] at h
  exact h.2

theorem on_congr {t' : SlotIndex} (h : t'.nBuckets = t.nBuckets) : t'.on bid = t.on bid := by
  unfold SlotIndex.on
  rw [h]

theorem lastOf_mem {id : Nat} {es : List Entry} {x : Entry} (h : lastOf id es = some x) :
    x ∈ es ∧ x.head.id = id := by
  obtain ⟨a, b, rfl, hx, -⟩ := lastSat_some h
  exact ⟨by simp, by simpa using hx⟩

theorem Indexes.bucketOf (h : Indexes cfg log t) {id off : Nat} (hc : t.Cell id off) :
    t.nBuckets = cfg.nBuckets ∧ t.bucketOf id = cfg.idToBucket id := by
  have hne := h.known id off hc
  obtain ⟨fin, hfin⟩ := Option.ne_none_iff_exists'.mp hne
  have hlt := on_lt (cursorOf_on hfin).1
  have hn : t.nBuckets = cfg.nBuckets := by
    rcases h.buckets with h0 | h
    . omega
    . exact h
  refine ⟨hn, ?_⟩
  unfold SlotIndex.bucketOf Cfg.idToBucket
  rw [hn]

-- Whether cell `i` names an id of bucket `bid`.
def SlotIndex.inBucket (t : SlotIndex) (bid i : Nat) : Bool :=
  (t.view i).any fun p => t.bucketOf p.1 == bid

theorem countOf_card (cfg : Cfg) (t : SlotIndex) (bid : Nat) :
    t.countOf cfg bid =
      ((Finset.range (SlotIndex.cap cfg)).filter fun i => t.inBucket bid i = true).card := by
  unfold SlotIndex.countOf Probing.count
  rw [Finset.card_filter]
  apply Finset.sum_congr rfl
  intro i _
  unfold SlotIndex.inBucket
  cases Option.any (fun p => t.bucketOf p.1 == bid) (t.view i) <;> rfl

theorem Indexes.cell_of (h : Indexes cfg log t) {i : Nat} (hi : t.inBucket bid i = true) :
    t.Cell (t.ids i) (t.offs i) ∧ cfg.idToBucket (t.ids i) = bid := by
  unfold SlotIndex.inBucket at hi
  cases hview : t.view i with
  | none =>
    rw [hview] at hi
    cases hi
  | some p =>
    obtain ⟨id, off⟩ := p
    rw [hview] at hi
    simp only [Option.any_some, beq_iff_eq] at hi
    obtain ⟨-, rfl, rfl⟩ := SlotIndex.view_some.mp hview
    have hc : t.Cell (t.ids i) (t.offs i) := SlotIndex.cell_iff.mpr ⟨i, hview⟩
    exact ⟨hc, (h.bucketOf hc).2 ▸ hi⟩

-- Distinct cells name distinct ids, each that of a slot.
theorem Indexes.countOf_le (h : Indexes cfg log t) (bid : Nat) :
    t.countOf cfg bid ≤ (log bid).slots.length := by
  rw [countOf_card]
  have hcard : ((Finset.range (SlotIndex.cap cfg)).filter fun i => t.inBucket bid i = true).card ≤
      (((log bid).slots.map fun x => x.head.id).toFinset).card := by
    apply Finset.card_le_card_of_injOn t.ids
    . intro i hi
      obtain ⟨hc, hb⟩ := h.cell_of (Finset.mem_filter.mp hi).2
      obtain ⟨x, hx, -⟩ := h.cell _ _ hc
      rw [hb] at hx
      obtain ⟨hmem, hid⟩ := lastOf_mem hx
      simp only [List.coe_toFinset, List.mem_map, Set.mem_ofPred_eq]
      exact ⟨x, hmem, hid⟩
    . intro i hi j hj hij
      have hne : t.ids i ≠ 0 := (h.cell_of (Finset.mem_filter.mp hi).2).1.1
      exact h.ordered.chained.unique (SlotIndex.view_some.mpr ⟨hne, rfl, rfl⟩)
        (SlotIndex.view_some.mpr ⟨hne, hij.symm, rfl⟩)
  have hlen := List.toFinset_card_le ((log bid).slots.map fun x => x.head.id)
  rw [List.length_map] at hlen
  omega

theorem Indexes.small (h : Indexes cfg log t) (bid : Nat) : t.countOf cfg bid < 65536 := by
  have hle := h.countOf_le bid
  rw [countOf_card] at hle ⊢
  by_cases hpos : 0 < ((Finset.range (SlotIndex.cap cfg)).filter fun i => t.inBucket bid i = true).card
  . obtain ⟨i, hi⟩ := Finset.card_pos.mp hpos
    obtain ⟨hc, hb⟩ := h.cell_of (Finset.mem_filter.mp hi).2
    obtain ⟨fin, hfin⟩ := Option.ne_none_iff_exists'.mp (h.known _ _ hc)
    rw [hb] at hfin
    have hlen := (h.cursor bid fin hfin).2
    omega
  . omega

/-! What the operations of the index make of it -/

theorem indexes_empty (cfg : Cfg) (log : Nat → Believed) {n : Nat} (hn : n = 0 ∨ n = cfg.nBuckets) :
    Indexes cfg log (SlotIndex.empty n) where
  ordered := SlotIndex.ordered_empty cfg n
  buckets := hn
  known _ _ h := by
    obtain ⟨hid, i, hi, -⟩ := h
    exact absurd hi.symm hid
  cursor bid fin h := by
    have hzero := (cursorOf_on h).2
    exact absurd hzero.1.symm hzero.2
  cell _ _ h := by
    obtain ⟨hid, i, hi, -⟩ := h
    exact absurd hi.symm hid

-- A step that has to do with one bucket only.
theorem Indexes.step {t' : SlotIndex} (h : Indexes cfg log t) (bid : Nat) (hord : t'.Ordered cfg)
    (hn : t'.nBuckets = t.nBuckets) (hlog : ∀ b, b ≠ bid → log' b = log b)
    (hother : ∀ b, b ≠ bid → t'.cursorOf b = t.cursorOf b)
    (hcur : ∀ fin, t'.cursorOf bid = some fin → (log' bid).fin = fin ∧ (log' bid).slots.length < 65536)
    (hcell : ∀ id off, t'.Cell id off → (cfg.idToBucket id ≠ bid ∧ t.Cell id off) ∨
      (cfg.idToBucket id = bid ∧ t'.cursorOf bid ≠ none ∧
        ∃ x, lastOf id (log' bid).slots = some x ∧ x.off = off)) :
    Indexes cfg log' t' := by
  constructor
  . exact hord
  . rw [hn]
    exact h.buckets
  . intro id off hc
    rcases hcell id off hc with ⟨hb, hold⟩ | ⟨hb, hknown, -⟩
    . rw [hother _ hb]
      exact h.known id off hold
    . rw [hb]
      exact hknown
  . intro b fin hc
    by_cases hb : b = bid
    . subst hb
      exact hcur fin hc
    . rw [hother b hb] at hc
      rw [hlog b hb]
      exact h.cursor b fin hc
  . intro id off hc
    rcases hcell id off hc with ⟨hb, hold⟩ | ⟨hb, -, hx⟩
    . rw [hlog _ hb]
      exact h.cell id off hold
    . rw [hb]
      exact hx

-- A forgotten bucket may have any log.
theorem Indexes.forget (h : Indexes cfg log t) (hlog : ∀ b, b ≠ bid → log' b = log b) :
    Indexes cfg log' (t.forget cfg bid) := by
  obtain ⟨hord, hgone⟩ := h.ordered.forget (h.small bid)
  refine h.step bid hord (forget_nBuckets t bid) hlog ?_ ?_ ?_
  . intro b hb
    rw [forget_cursor, if_neg hb]
  . intro fin hc
    rw [forget_cursor, if_pos rfl] at hc
    cases hc
  . intro id off hc
    have hold := forget_cell hc
    refine .inl ⟨?_, hold⟩
    rintro rfl
    obtain ⟨fin, hfin⟩ := Option.ne_none_iff_exists'.mp (h.known id off hold)
    exact hgone (cursorOf_on hfin).1 id off hc (h.bucketOf hold).2

-- So may one that is not known.
theorem Indexes.relog (h : Indexes cfg log t) (hlog : ∀ b, b ≠ bid → log' b = log b)
    (hno : t.cursorOf bid = none) : Indexes cfg log' t := by
  refine h.step bid h.ordered rfl hlog (fun _ _ => rfl) ?_ ?_
  . intro fin hc
    rw [hno] at hc
    cases hc
  . intro id off hc
    refine .inl ⟨?_, hc⟩
    rintro rfl
    exact h.known id off hc hno

theorem ordered_cursor (h : t.Ordered cfg) (cursor : Nat → Nat) :
    SlotIndex.Ordered cfg { t with cursor := cursor } :=
  ⟨h.chained, h.used, h.room, h.bcnt⟩

theorem cursorOf_set {b fin : Nat} :
    SlotIndex.cursorOf { t with cursor := SlotIndex.set t.cursor bid fin } b =
      if b = bid then (if t.on bid = true ∧ fin ≠ 0 then some fin else none) else t.cursorOf b := by
  by_cases hb : b = bid
  . subst hb
    by_cases hon : t.on b = true
    . by_cases h0 : fin = 0
      . simp [SlotIndex.cursorOf, SlotIndex.set, h0]
      . have hon' : SlotIndex.on { t with cursor := SlotIndex.set t.cursor b fin } b = true := hon
        simp [SlotIndex.cursorOf, SlotIndex.set, h0, hon, hon']
    . have hon' : ¬ SlotIndex.on { t with cursor := SlotIndex.set t.cursor b fin } b = true := hon
      simp [SlotIndex.cursorOf, hon, hon']
  . rw [if_neg hb]
    apply cursorOf_congr
    . simp [SlotIndex.set, hb]
    . rfl

-- A bucket that is begun has no slots so far.
theorem Indexes.begin (h : Indexes cfg log t) {dataOff : Nat}
    (hlog : ∀ b, b ≠ bid → log' b = log b) (hbid : log' bid = ⟨[], dataOff⟩) :
    Indexes cfg log' (t.begin cfg bid dataOff) := by
  unfold SlotIndex.begin
  split
  . have hf := h.forget hlog
    refine hf.step bid (ordered_cursor hf.ordered _) rfl (fun _ _ => rfl) ?_ ?_ ?_
    . intro b hb
      rw [cursorOf_set, if_neg hb]
    . intro fin hc
      rw [cursorOf_set, if_pos rfl] at hc
      split at hc
      . cases hc
        rw [hbid]
        exact ⟨rfl, Nat.zero_lt_succ _⟩
      . cases hc
    . intro id off hc
      refine .inl ⟨?_, hc⟩
      rintro rfl
      apply hf.known id off hc
      rw [forget_cursor, if_pos rfl]
  . next hoff =>
    refine h.relog hlog ?_
    cases hc : t.cursorOf bid with
    | none => rfl
    | some fin => exact absurd (cursorOf_on hc).1 hoff

theorem Indexes.put (h : Indexes cfg log t) {id off : Nat} (hid : id ≠ 0)
    (hknown : t.cursorOf (cfg.idToBucket id) ≠ none)
    (hx : ∃ x, lastOf id (log (cfg.idToBucket id)).slots = some x ∧ x.off = off) :
    Indexes cfg log (SlotIndex.put cfg t id off) := by
  have hcur : ∀ b, (SlotIndex.put cfg t id off).cursorOf b = t.cursorOf b := by
    intro b
    apply cursorOf_congr
    . rw [(put_cursor _ _ _).1]
    . rw [(put_cursor _ _ _).2]
  refine h.step (cfg.idToBucket id) (h.ordered.put hid off) (put_cursor _ _ _).2
    (fun _ _ => rfl) (fun b _ => hcur b) ?_ ?_
  . intro fin hc
    rw [hcur] at hc
    exact h.cursor _ fin hc
  . intro id' off' hc
    rw [hcur]
    rcases h.ordered.put_cells hid hc with ⟨hold, -⟩ | ⟨rfl, rfl⟩
    . by_cases hb : cfg.idToBucket id' = cfg.idToBucket id
      . exact .inr ⟨hb, hknown, hb ▸ h.cell id' off' hold⟩
      . exact .inl ⟨hb, hold⟩
    . exact .inr ⟨rfl, hknown, hx⟩

-- The lesson of a walk of the whole log.
theorem Indexes.learn (h : Indexes cfg log t) {id fin : Nat} {o : Option Nat} (hid : id ≠ 0)
    (hfin : (log (cfg.idToBucket id)).fin = fin)
    (hlen : (log (cfg.idToBucket id)).slots.length < 65536)
    (ho : ∀ off, o = some off →
      ∃ x, lastOf id (log (cfg.idToBucket id)).slots = some x ∧ x.off = off) :
    Indexes cfg log (t.learn cfg (cfg.idToBucket id) id o fin) := by
  unfold SlotIndex.learn
  split
  . exact h
  . next hon =>
    rw [Bool.or_eq_true, not_or] at hon
    have hon1 : t.on (cfg.idToBucket id) = true := by simpa using hon.1
    have hfin0 : fin ≠ 0 := by simpa using hon.2
    split
    . exact h.forget fun _ _ => rfl
    . next hsame =>
      extract_lets t'
      have hlearned : Indexes cfg log t' ∧ t'.cursorOf (cfg.idToBucket id) ≠ none := by
        simp only [t']
        split
        . next h0 =>
          refine ⟨h.step (cfg.idToBucket id) (ordered_cursor h.ordered _) rfl
            (fun _ _ => rfl) ?_ ?_ ?_, ?_⟩
          . intro b hb
            rw [cursorOf_set, if_neg hb]
          . intro f hc
            rw [cursorOf_set, if_pos rfl, if_pos ⟨hon1, hfin0⟩] at hc
            cases hc
            exact ⟨hfin, hlen⟩
          . intro i off hc
            refine .inl ⟨?_, hc⟩
            intro hb
            apply h.known i off hc
            rw [hb]
            exact cursorOf_none h0
          . rw [cursorOf_set, if_pos rfl, if_pos ⟨hon1, hfin0⟩]
            exact Option.some_ne_none _
        . next h0 =>
          refine ⟨h, ?_⟩
          rw [cursorOf_some hon1 rfl h0]
          exact Option.some_ne_none _
      cases o with
      | none => exact hlearned.1
      | some off => exact hlearned.1.put hid hlearned.2 (ho off rfl)

theorem lastOf_snoc (id : Nat) (es : List Entry) (x : Entry) :
    lastOf id (es ++ [x]) = if x.head.id = id then some x else lastOf id es := by
  unfold lastOf
  rw [lastSat_append]
  by_cases hx : x.head.id = id
  . simp [lastSat, hx]
  . simp [lastSat, hx]

-- A slot that joins the log at its end.
theorem Indexes.note (h : Indexes cfg log t) {x : Entry} {size : Nat} (hid : x.head.id ≠ 0)
    (hhome : cfg.idToBucket x.head.id = bid) (hsize : 0 < size)
    (hlog : ∀ b, b ≠ bid → log' b = log b)
    (hbid : log' bid = ⟨(log bid).slots ++ [x], x.off + size⟩)
    (hlen : (log bid).slots.length + 1 < 65536) (hfits : x.off + size < 2 ^ 32) :
    Indexes cfg log' (t.note cfg bid x.head.id x.off size x.tombstone) := by
  unfold SlotIndex.note
  rw [Nat.mod_eq_of_lt hfits]
  split
  . next hno =>
    refine h.relog hlog ?_
    unfold SlotIndex.cursorOf
    rw [if_pos hno]
  . next hknown =>
    rw [Bool.or_eq_true, not_or] at hknown
    have hon : t.on bid = true := by simpa using hknown.1
    split
    . exact h.forget hlog
    . next hoff =>
      have hcursor : ∀ b, SlotIndex.cursorOf
          { t with cursor := SlotIndex.set t.cursor bid (x.off + size) } b =
          if b = bid then some (x.off + size) else t.cursorOf b := by
        intro b
        rw [cursorOf_set]
        have hpos : t.on bid = true ∧ x.off + size ≠ 0 := ⟨hon, by omega⟩
        rw [if_pos hpos]
      have hord := ordered_cursor h.ordered (SlotIndex.set t.cursor bid (x.off + size))
      have hfin : (log' bid).fin = x.off + size ∧ (log' bid).slots.length < 65536 := by
        rw [hbid]
        exact ⟨rfl, by simpa using hlen⟩
      -- the other ids of the bucket keep their last slot
      have hrest : ∀ id off, t.Cell id off → id ≠ x.head.id → cfg.idToBucket id = bid →
          ∃ y, lastOf id (log' bid).slots = some y ∧ y.off = off := by
        intro id off hc hne hb
        rw [hbid]
        simp only [lastOf_snoc, if_neg (Ne.symm hne)]
        exact hb ▸ h.cell id off hc
      simp only
      split
      . have hcur : ∀ b, (SlotIndex.drop cfg
            { t with cursor := SlotIndex.set t.cursor bid (x.off + size) } x.head.id).cursorOf b =
            if b = bid then some (x.off + size) else t.cursorOf b := by
          intro b
          rw [← hcursor b]
          apply cursorOf_congr
          . rw [(drop_cursor _ _).1]
          . rw [(drop_cursor _ _).2]
        refine h.step bid (hord.drop hid) (drop_cursor _ _).2 hlog ?_ ?_ ?_
        . intro b hb
          rw [hcur, if_neg hb]
        . intro fin hc
          rw [hcur, if_pos rfl] at hc
          cases hc
          exact hfin
        . intro id off hc
          obtain ⟨hold, hne⟩ := (hord.drop_cells hid).mp hc
          by_cases hb : cfg.idToBucket id = bid
          . refine .inr ⟨hb, ?_, hrest id off hold hne hb⟩
            rw [hcur, if_pos rfl]
            exact Option.some_ne_none _
          . exact .inl ⟨hb, hold⟩
      . have hcur : ∀ b, (SlotIndex.put cfg
            { t with cursor := SlotIndex.set t.cursor bid (x.off + size) } x.head.id x.off).cursorOf b =
            if b = bid then some (x.off + size) else t.cursorOf b := by
          intro b
          rw [← hcursor b]
          apply cursorOf_congr
          . rw [(put_cursor _ _ _).1]
          . rw [(put_cursor _ _ _).2]
        refine h.step bid (hord.put hid x.off) (put_cursor _ _ _).2 hlog ?_ ?_ ?_
        . intro b hb
          rw [hcur, if_neg hb]
        . intro fin hc
          rw [hcur, if_pos rfl] at hc
          cases hc
          exact hfin
        . intro id off hc
          rcases hord.put_cells hid hc with ⟨hold, hne⟩ | ⟨rfl, rfl⟩
          . by_cases hb : cfg.idToBucket id = bid
            . refine .inr ⟨hb, ?_, hrest id off hold hne hb⟩
              rw [hcur, if_pos rfl]
              exact Option.some_ne_none _
            . exact .inl ⟨hb, hold⟩
          . refine .inr ⟨hhome, ?_, x, ?_, rfl⟩
            . rw [hcur, if_pos rfl]
              exact Option.some_ne_none _
            . rw [hbid]
              simp only [lastOf_snoc, if_true]

end

end KeyValueDb.BlobDb
