import KeyValueDb.BlobDb.System
import KeyValueDb.BlobDb.IndexTruth

/-!
The slot index over whole runs of its calls, against a list of what was put and not since dropped.
The count of a bucket is kept in 16 bits: a run is sound as long as no bucket is given more cells
than that.
-/

namespace KeyValueDb.BlobDb

namespace SlotIndex

-- The calls, with arguments of the widths that the interface gives them.
inductive Op where
  | reset (nBuckets : UInt16)
  | forget (bid : UInt16)
  | begin (bid : UInt16) (dataOff : UInt32)
  | note (bid : UInt16) (id : UInt64) (off size : UInt32) (tombstone : Bool)
  | learn (bid : UInt16) (id : UInt64) (off : Option UInt32) (cursor : UInt32)
  deriving Repr, DecidableEq

-- id 0 is never a blob.
def Op.Named : Op → Prop
  | .note _ id _ _ _ | .learn _ id _ _ => id ≠ 0
  | _ => True

instance decidableNamed : (op : Op) → Decidable op.Named
  | .note _ id _ _ _ | .learn _ id _ _ => inferInstanceAs (Decidable (id ≠ 0))
  | .reset _ | .forget _ | .begin _ _ => inferInstanceAs (Decidable True)

variable (cfg : Cfg)

def step (t : SlotIndex) : Op → SlotIndex
  | .reset nBuckets => reset cfg nBuckets.toNat
  | .forget bid => forget cfg t bid.toNat
  | .begin bid dataOff => t.begin cfg bid.toNat dataOff.toNat
  | .note bid id off size tombstone =>
    note cfg t bid.toNat id.toNat off.toNat size.toNat tombstone
  | .learn bid id off cursor =>
    learn cfg t bid.toNat id.toNat (off.map UInt32.toNat) cursor.toNat

def runOps (t : SlotIndex) (ops : List Op) : SlotIndex := ops.foldl (step cfg) t

/-! What the index is for -/

-- The ids that were put, each with the offset it was last put with, and how far each bucket is known.
structure Ledger where
  nBuckets : Nat
  cursor : Nat → Nat
  entries : List (Nat × Nat)

namespace Ledger

def empty (nBuckets : Nat) : Ledger := ⟨nBuckets, fun _ => 0, []⟩

def on (l : Ledger) (bid : Nat) : Bool := l.nBuckets != 0 && bid < l.nBuckets

def holds (l : Ledger) (id : Nat) : Bool := l.entries.any fun p => p.1 == id

def drop (l : Ledger) (id : Nat) : Ledger :=
  { l with entries := l.entries.filter fun p => p.1 != id }

-- A new id is refused when the table is full.
def put (l : Ledger) (id off : Nat) : Ledger :=
  if l.holds id || l.entries.length < maxFill cfg then
    { l with entries := (id, off) :: (l.drop id).entries }
  else l

def forget (l : Ledger) (bid : Nat) : Ledger :=
  if l.on bid then
    { l with
      cursor := set l.cursor bid 0
      entries := l.entries.filter fun p => p.1 % l.nBuckets != bid }
  else l

def step (l : Ledger) : Op → Ledger
  | .reset nBuckets =>
    if cfg.slotIndexMaxBuckets < nBuckets.toNat then empty 0 else empty nBuckets.toNat
  | .forget bid => l.forget bid.toNat
  | .begin bid dataOff =>
    if l.on bid.toNat then
      let l := l.forget bid.toNat
      { l with cursor := set l.cursor bid.toNat dataOff.toNat }
    else l
  | .note bid id off size tombstone =>
    if !l.on bid.toNat || l.cursor bid.toNat == 0 then l
    else if off.toNat ≠ l.cursor bid.toNat then l.forget bid.toNat
    else
      let l := { l with cursor := set l.cursor bid.toNat ((off.toNat + size.toNat) % 2 ^ 32) }
      if tombstone then l.drop id.toNat else l.put cfg id.toNat off.toNat
  | .learn bid id off cursor =>
    if !l.on bid.toNat || cursor.toNat == 0 then l
    else if l.cursor bid.toNat ≠ 0 ∧ l.cursor bid.toNat ≠ cursor.toNat then l.forget bid.toNat
    else
      let l := if l.cursor bid.toNat = 0 then
        { l with cursor := set l.cursor bid.toNat cursor.toNat } else l
      match off with
      | some o => l.put cfg id.toNat o.toNat
      | none => l

end Ledger

def ledger (ops : List Op) : Ledger := ops.foldl (Ledger.step cfg) (Ledger.empty 0)

/-! The loops without a bound on their steps -/

-- Cell `i` taken out, with the gap still open.
def cleared (t : SlotIndex) (i : Nat) : SlotIndex :=
  { t with
    bcnt := set t.bcnt (t.bucketOf (t.ids i)) ((t.bcnt (t.bucketOf (t.ids i)) + 65535) % 65536)
    ids := set t.ids i 0
    used := (t.used + (2 ^ 32 - 1)) % 2 ^ 32 }

-- The loop of remove_at, from a gap at `i` and cell `j`, returns with the last table.
inductive GapLoop : SlotIndex → Nat → Nat → SlotIndex → Prop where
  | free {t : SlotIndex} {i j : Nat} (h : t.ids (next cfg j) = 0) : GapLoop t i j t
  | stays {t t' : SlotIndex} {i j : Nat} (h : t.ids (next cfg j) ≠ 0)
    (hstays : stays i (next cfg j) (home cfg (t.ids (next cfg j))) = true)
    (rest : GapLoop t i (next cfg j) t') : GapLoop t i j t'
  | moves {t t' : SlotIndex} {i j : Nat} (h : t.ids (next cfg j) ≠ 0)
    (hmoves : stays i (next cfg j) (home cfg (t.ids (next cfg j))) = false)
    (rest : GapLoop
      { t with
        ids := set (set t.ids i (t.ids (next cfg j))) (next cfg j) 0
        offs := set t.offs i (t.offs (next cfg j)) } (next cfg j) (next cfg j) t') :
    GapLoop t i j t'

-- The loop of forget, from cell `i`.
inductive ForgetLoop (bid : Nat) : SlotIndex → Nat → SlotIndex → Prop where
  | done {t : SlotIndex} {i : Nat} (h : ¬ (i < cap cfg ∧ t.bcnt bid ≠ 0)) : ForgetLoop bid t i t
  | skips {t t' : SlotIndex} {i : Nat} (h : i < cap cfg ∧ t.bcnt bid ≠ 0)
    (hother : ¬ (t.ids i ≠ 0 ∧ t.bucketOf (t.ids i) = bid))
    (rest : ForgetLoop bid t (i + 1) t') : ForgetLoop bid t i t'
  | removes {t t' t'' : SlotIndex} {i : Nat} (h : i < cap cfg ∧ t.bcnt bid ≠ 0)
    (hcell : t.ids i ≠ 0 ∧ t.bucketOf (t.ids i) = bid) (gap : GapLoop cfg (cleared t i) i i t')
    (rest : ForgetLoop bid t' i t'') : ForgetLoop bid t i t''

section

variable {cfg} {t : SlotIndex}

-- The bound that closeGap has is never met: another free cell lies ahead.
theorem gapLoop_closeGap {i j n e : Nat} (g : Probing.Gap (cap cfg) (home cfg) t.view i j)
    (he : e < cap cfg) (hfree : t.view e = none) (hei : e ≠ i)
    (hn : (j < e ∧ e ≤ n + j) ∨ (e ≤ j ∧ e + cap cfg ≤ n + j)) :
    GapLoop cfg t i j (closeGap cfg n t i j) := by
  induction n generalizing t i j with
  | zero =>
    have hjlt := g.seen_lt
    omega
  | succ n ih =>
    have hstep := g.next_cases
    have hjlt := g.seen_lt
    rw [closeGap_succ]
    by_cases h0 : t.ids (Probing.next (cap cfg) j) = 0
    . simp only [if_pos h0]
      exact .free h0
    . have hcell : t.view (Probing.next (cap cfg) j) = some _ := view_some.mpr ⟨h0, rfl, rfl⟩
      have hne : Probing.next (cap cfg) j ≠ e := by
        intro heq
        rw [heq, hfree] at hcell
        cases hcell
      have hahead : (Probing.next (cap cfg) j < e ∧ e ≤ n + Probing.next (cap cfg) j) ∨
          (e ≤ Probing.next (cap cfg) j ∧ e + cap cfg ≤ n + Probing.next (cap cfg) j) := by
        omega
      simp only [if_neg h0]
      by_cases hs : stays i (Probing.next (cap cfg) j)
          (home cfg (t.ids (Probing.next (cap cfg) j))) = true
      . rw [if_pos hs]
        exact .stays h0 hs (ih (g.keep hcell ((stays_iff ..).mp hs)) hfree hei hahead)
      . have hpull := g.pull hcell fun ha => hs ((stays_iff ..).mpr ha)
        rw [← view_moved t h0] at hpull
        rw [if_neg hs]
        refine .moves h0 (Bool.eq_false_iff.mpr hs)
          (ih hpull ((congrFun (view_moved t h0) e).trans ?_) (Ne.symm hne) hahead)
        rw [Probing.move, Function.update_of_ne (Ne.symm hne), Function.update_of_ne hei]
        exact hfree

theorem Ordered.gapLoop (h : Ordered cfg t) {i : Nat} (hi : t.ids i ≠ 0) :
    GapLoop cfg (cleared t i) i i (SlotIndex.removeAt cfg t i) := by
  obtain ⟨e, he, hfree⟩ := h.free
  have hei : e ≠ i := by
    rintro rfl
    exact hi (view_none.mp hfree)
  have hview : (cleared t i).view = Function.update t.view i none := view_cleared t i _ _
  have hgap : Probing.Gap (cap cfg) (home cfg) (cleared t i).view i i := by
    rw [hview]
    exact h.chained.gap (h.cell_lt hi)
  have hstill : (cleared t i).view e = none := by
    rw [hview, Function.update_of_ne hei]
    exact hfree
  exact gapLoop_closeGap hgap he hstill hei (by omega)

theorem Ordered.countOf_removeAt (h : Ordered cfg t) {bid i : Nat}
    (hcell : t.ids i ≠ 0 ∧ t.bucketOf (t.ids i) = bid) :
    countOf cfg (SlotIndex.removeAt cfg t i) bid + 1 = countOf cfg t bid := by
  have hcount := h.count_cleared hcell.1 fun p => t.bucketOf p.1 == bid
  simp only [hcell.2, beq_self_eq_true, Bool.toNat_true] at hcount
  unfold countOf
  simp only [bucketOf_removeAt]
  exact hcount

-- Every turn of the loop moves on or takes a cell of the bucket away.
theorem Ordered.forgetLoop (h : Ordered cfg t) {bid n i : Nat} (hi : i ≤ cap cfg)
    (hn : cap cfg - i + countOf cfg t bid < n) :
    ForgetLoop cfg bid t i (forgetFrom cfg bid n t i) ∧ Ordered cfg (forgetFrom cfg bid n t i) := by
  induction n generalizing t i with
  | zero => omega
  | succ n ih =>
    unfold forgetFrom
    by_cases hgo : i < cap cfg ∧ t.bcnt bid ≠ 0
    . rw [if_pos hgo]
      by_cases hcell : t.ids i ≠ 0 ∧ t.bucketOf (t.ids i) = bid
      . have hdown := h.countOf_removeAt hcell
        obtain ⟨hloop, hord⟩ := ih (h.removeAt hcell.1) hi (by omega)
        rw [if_pos hcell]
        exact ⟨.removes hgo hcell (h.gapLoop hcell.1) hloop, hord⟩
      . obtain ⟨hloop, hord⟩ := ih h (by omega : i + 1 ≤ cap cfg) (by omega)
        rw [if_neg hcell]
        exact ⟨.skips hgo hcell hloop, hord⟩
    . rw [if_neg hgo]
      exact ⟨.done hgo, h⟩

theorem Ordered.forget_loop (h : Ordered cfg t) (bid : Nat) :
    ForgetLoop cfg bid { t with cursor := set t.cursor bid 0 } 0
        (forgetFrom cfg bid (2 * cap cfg) { t with cursor := set t.cursor bid 0 } 0) ∧
      Ordered cfg (forgetFrom cfg bid (2 * cap cfg) { t with cursor := set t.cursor bid 0 } 0) := by
  have hlt : countOf cfg { t with cursor := set t.cursor bid 0 } bid < cap cfg := h.countOf_lt bid
  exact (ordered_cursor h _).forgetLoop (Nat.zero_le _) (by omega)

theorem Ordered.forget_ordered (h : Ordered cfg t) (bid : Nat) :
    Ordered cfg (SlotIndex.forget cfg t bid) := by
  unfold SlotIndex.forget
  split
  . exact (h.forget_loop bid).2
  . exact h

/-! Cells -/

-- Cells of other buckets outlive a forget.
theorem forgetFrom_keeps {bid n i id off : Nat} (h : Ordered cfg t) (hc : t.Cell id off)
    (hb : t.bucketOf id ≠ bid) : (forgetFrom cfg bid n t i).Cell id off := by
  induction n generalizing t i with
  | zero => exact hc
  | succ n ih =>
    unfold forgetFrom
    split
    . split
      . next hcell =>
        refine ih (h.removeAt hcell.1) ((h.removeAt_cells hcell.1).mpr ⟨hc, ?_⟩) ?_
        . rintro rfl
          exact hb hcell.2
        . rwa [bucketOf_removeAt]
      . exact ih h hc hb
    . exact hc

theorem Ordered.forget_cells (h : Ordered cfg t) {bid : Nat} (hsmall : countOf cfg t bid < 65536)
    (hon : t.on bid = true) {id off : Nat} :
    (SlotIndex.forget cfg t bid).Cell id off ↔ t.Cell id off ∧ t.bucketOf id ≠ bid := by
  refine ⟨fun hc => ⟨forget_cell hc, (h.forget hsmall).2 hon id off hc⟩, fun ⟨hc, hb⟩ => ?_⟩
  have hc' : SlotIndex.Cell { t with cursor := set t.cursor bid 0 } id off := hc
  unfold SlotIndex.forget
  rw [if_pos hon]
  exact forgetFrom_keeps (ordered_cursor h _) hc' hb

-- A put of an id that is there, or that the table has room for, makes its cell.
theorem Ordered.put_stored (h : Ordered cfg t) {id : Nat} (hid : id ≠ 0) (off : Nat)
    (hroom : (∃ i, t.ids i = id) ∨ t.used < maxFill cfg) {id' off' : Nat} :
    (SlotIndex.put cfg t id off).Cell id' off' ↔
      (t.Cell id' off' ∧ id' ≠ id) ∨ (id' = id ∧ off' = off) := by
  refine ⟨h.put_cells hid, fun hc => ?_⟩
  have hupdate : ∀ x, (t.view x = none ∨ t.ids x = id) →
      ((t.Cell id' off' ∧ id' ≠ id) ∨ (id' = id ∧ off' = off)) →
      ∃ y, Function.update t.view x (some (id, off)) y = some (id', off') := by
    rintro x hx (⟨hold, hne⟩ | ⟨rfl, rfl⟩)
    . obtain ⟨y, hy⟩ := cell_iff.mp hold
      refine ⟨y, ?_⟩
      rw [Function.update_of_ne]
      . exact hy
      . rintro rfl
        rcases hx with hx | hx
        . rw [hx] at hy
          cases hy
        . exact hne ((view_some.mp hy).2.1.symm.trans hx)
    . exact ⟨x, Function.update_self ..⟩
  rcases h.put_cases hid off with ⟨x, hx, heq⟩ | ⟨hnew, hfull, -⟩ | ⟨-, -, x, -, hx0, -, heq⟩
  . rw [heq, cell_iff, view_offs t hid hx]
    exact hupdate x (.inr hx) hc
  . rcases hroom with ⟨i, hi⟩ | hroom
    . exact absurd hi (hnew i)
    . omega
  . rw [heq, cell_iff, view_added t hid]
    exact hupdate x (.inl (view_none.mpr hx0)) hc

theorem Ordered.put_refused (h : Ordered cfg t) {id : Nat} (hid : id ≠ 0) (off : Nat)
    (hnew : ∀ i, t.ids i ≠ id) (hfull : maxFill cfg ≤ t.used) : SlotIndex.put cfg t id off = t := by
  rcases h.put_cases hid off with ⟨x, hx, -⟩ | ⟨-, -, heq⟩ | ⟨-, hroom, -⟩
  . exact absurd hx (hnew x)
  . exact heq
  . omega

end

/-! The index and the ledger -/

structure Agrees (cfg : Cfg) (l : Ledger) (t : SlotIndex) : Prop where
  ordered : Ordered cfg t
  buckets : t.nBuckets = l.nBuckets
  cursor : t.cursor = l.cursor
  cells : ∀ id off, t.Cell id off ↔ (id, off) ∈ l.entries
  keys : (l.entries.map Prod.fst).Nodup

namespace Agrees

variable {cfg} {l : Ledger} {t : SlotIndex} (a : Agrees cfg l t)

include a

theorem count (q : Nat × Nat → Bool) :
    Probing.count (cap cfg) q t.view = (l.entries.filter q).length :=
  a.ordered.chained.count_eq q a.keys.of_map fun p => by rw [← a.cells, cell_iff]

theorem used_eq : t.used = l.entries.length := by
  rw [a.ordered.used, a.count, List.filter_true]

theorem countOf_eq (b : Nat) :
    countOf cfg t b = (l.entries.filter fun p => p.1 % l.nBuckets == b).length := by
  rw [countOf, a.count]
  simp only [bucketOf, a.buckets]

theorem on_eq (bid : Nat) : l.on bid = t.on bid := by rw [SlotIndex.on, a.buckets, Ledger.on]

theorem holds_iff {id : Nat} (hid : id ≠ 0) : l.holds id = true ↔ ∃ i, t.ids i = id := by
  rw [Ledger.holds, List.any_eq_true]
  constructor
  . rintro ⟨⟨id', off⟩, hp, heq⟩
    obtain ⟨-, i, hi, -⟩ := (a.cells id' off).mpr hp
    exact ⟨i, hi.trans (by simpa using heq)⟩
  . rintro ⟨i, hi⟩
    exact ⟨(id, t.offs i), (a.cells _ _).mp ⟨hid, i, hi, rfl⟩, by simp⟩

theorem at_cursor (cursor : Nat → Nat) : Agrees cfg { l with cursor := cursor }
    { t with cursor := cursor } :=
  ⟨ordered_cursor a.ordered cursor, a.buckets, rfl, a.cells, a.keys⟩

omit a in
theorem keys_filter (q : Nat × Nat → Bool) {es : List (Nat × Nat)} (h : (es.map Prod.fst).Nodup) :
    ((es.filter q).map Prod.fst).Nodup :=
  h.sublist (List.filter_sublist.map _)

theorem drop {id : Nat} (hid : id ≠ 0) : Agrees cfg (l.drop id) (SlotIndex.drop cfg t id) where
  ordered := a.ordered.drop hid
  buckets := (drop_cursor _ _).2.trans a.buckets
  cursor := (drop_cursor _ _).1.trans a.cursor
  cells id' off := by
    rw [a.ordered.drop_cells hid, a.cells, Ledger.drop, List.mem_filter, bne_iff_ne]
  keys := keys_filter _ a.keys

theorem put {id : Nat} (hid : id ≠ 0) (off : Nat) :
    Agrees cfg (l.put cfg id off) (SlotIndex.put cfg t id off) := by
  rw [Ledger.put]
  by_cases hroom : l.holds id || l.entries.length < maxFill cfg
  . have hfits : (∃ i, t.ids i = id) ∨ t.used < maxFill cfg := by
      rw [Bool.or_eq_true, a.holds_iff hid, decide_eq_true_eq] at hroom
      exact hroom.imp_right fun h => a.used_eq ▸ h
    rw [if_pos hroom]
    refine ⟨a.ordered.put hid off, (put_cursor _ _ _).2.trans a.buckets,
      (put_cursor _ _ _).1.trans a.cursor, fun id' off' => ?_, ?_⟩
    . rw [a.ordered.put_stored hid off hfits, a.cells, Ledger.drop, List.mem_cons, List.mem_filter,
        bne_iff_ne, Prod.mk.injEq]
      exact Or.comm
    . refine List.nodup_cons.mpr ⟨fun hmem => ?_, keys_filter _ a.keys⟩
      obtain ⟨p, hp, heq⟩ := List.mem_map.mp hmem
      exact bne_iff_ne.mp (List.mem_filter.mp hp).2 heq
  . rw [if_neg hroom]
    rw [Bool.or_eq_true, a.holds_iff hid, decide_eq_true_eq, not_or, not_lt] at hroom
    rw [a.ordered.put_refused hid off (not_exists.mp hroom.1) (a.used_eq ▸ hroom.2)]
    exact a

theorem forget {bid : Nat} (hsmall : countOf cfg t bid < 65536) :
    Agrees cfg (l.forget bid) (SlotIndex.forget cfg t bid) := by
  have hoff : t.on bid ≠ true → SlotIndex.forget cfg t bid = t := fun h => by
    rw [SlotIndex.forget, if_neg h]
  rw [Ledger.forget, a.on_eq]
  split
  . next hon =>
    refine ⟨a.ordered.forget_ordered bid, (forget_nBuckets t bid).trans a.buckets, ?_, fun id off => ?_,
      keys_filter _ a.keys⟩
    . rw [SlotIndex.forget, if_pos hon, (forgetFrom_cursor _ _ _).1, a.cursor]
    . rw [a.ordered.forget_cells hsmall hon, a.cells, List.mem_filter, bne_iff_ne, bucketOf,
        a.buckets]
  . next hno =>
    rw [hoff hno]
    exact a

end Agrees

theorem agrees_empty (cfg : Cfg) (n : Nat) : Agrees cfg (Ledger.empty n) (SlotIndex.empty n) where
  ordered := ordered_empty cfg n
  buckets := rfl
  cursor := rfl
  cells _ _ := ⟨fun ⟨hid, _, hi, _⟩ => absurd hi.symm hid, nofun⟩
  keys := List.nodup_nil

/-! Runs -/

-- What a call puts into the table.
def asks (t : SlotIndex) : Op → Option (Nat × Nat)
  | .note bid id off _ tombstone =>
    if !t.on bid.toNat || t.cursor bid.toNat == 0 then none
    else if off.toNat ≠ t.cursor bid.toNat ∨ tombstone then none
    else some (id.toNat, off.toNat)
  | .learn bid id off cursor =>
    if !t.on bid.toNat || cursor.toNat == 0 then none
    else if t.cursor bid.toNat ≠ 0 ∧ t.cursor bid.toNat ≠ cursor.toNat then none
    else off.map fun o => (id.toNat, o.toNat)
  | _ => none

-- The count of the bucket has room for a cell, if one is added.
def Spare (cfg : Cfg) (t : SlotIndex) (op : Op) : Prop :=
  ∀ id off, t.asks op = some (id, off) →
    countOf cfg t (t.bucketOf id) < 65535 ∨ (∃ i, t.ids i = id) ∨ maxFill cfg ≤ t.used

def Spared (cfg : Cfg) : SlotIndex → List Op → Prop
  | _, [] => True
  | t, op :: ops => Spare cfg t op ∧ Spared cfg (step cfg t op) ops

def Small (cfg : Cfg) (t : SlotIndex) : Prop := ∀ b, countOf cfg t b < 65536

section

variable {cfg} {l l' : Ledger} {t t' : SlotIndex}

theorem Agrees.countOf_le (a : Agrees cfg l t) (a' : Agrees cfg l' t')
    (hn : l'.nBuckets = l.nBuckets) (hsub : l'.entries.Sublist l.entries) (b : Nat) :
    countOf cfg t' b ≤ countOf cfg t b := by
  rw [a.countOf_eq, a'.countOf_eq, hn]
  exact (hsub.filter _).length_le

theorem Ordered.countOf_put (h : Ordered cfg t) {id : Nat} (hid : id ≠ 0) (off b : Nat) :
    countOf cfg (SlotIndex.put cfg t id off) b = countOf cfg t b ∨
      countOf cfg (SlotIndex.put cfg t id off) b = countOf cfg t b + 1 ∧ t.bucketOf id = b ∧
        (∀ i, t.ids i ≠ id) ∧ t.used < maxFill cfg := by
  rcases h.put_cases hid off with ⟨x, hx, heq⟩ | ⟨-, -, heq⟩ | ⟨hnew, hroom, x, hlt, hx0, -, heq⟩
  . left
    have hcell : t.view x = some (id, t.offs x) := view_some.mpr ⟨hid, hx, rfl⟩
    have hcount := Probing.count_update (c := t.view) (q := fun p => t.bucketOf p.1 == b)
      (h.chained.lt hcell) (some (id, off))
    rw [hcell] at hcount
    simp only [Option.any_some] at hcount
    rw [heq]
    unfold countOf
    rw [view_offs t hid hx]
    exact Nat.add_right_cancel hcount
  . exact .inl (by rw [heq])
  . have hcount := Probing.count_update (c := t.view) (q := fun p => t.bucketOf p.1 == b)
      hlt (some (id, off))
    rw [view_none.mpr hx0] at hcount
    simp only [Option.any_none, Option.any_some, Bool.toNat_false, Nat.add_zero] at hcount
    have hput : countOf cfg (SlotIndex.put cfg t id off) b =
        countOf cfg t b + (t.bucketOf id == b).toNat := by
      rw [heq]
      unfold countOf
      rw [view_added t hid]
      exact hcount
    rw [hput]
    by_cases hb : t.bucketOf id = b
    . exact .inr ⟨by simp [hb], hb, hnew, hroom⟩
    . exact .inl (by simp [hb])

theorem Small.put (hs : Small cfg t) (h : Ordered cfg t) {id : Nat} (hid : id ≠ 0) (off : Nat)
    (hspare : countOf cfg t (t.bucketOf id) < 65535 ∨ (∃ i, t.ids i = id) ∨ maxFill cfg ≤ t.used) :
    Small cfg (SlotIndex.put cfg t id off) := by
  intro b
  rcases h.countOf_put hid off b with heq | ⟨heq, rfl, hnew, hroom⟩
  . rw [heq]
    exact hs b
  . rcases hspare with hlt | ⟨i, hi⟩ | hfull
    . omega
    . exact absurd hi (hnew i)
    . omega

theorem Agrees.forget_step (a : Agrees cfg l t) (hs : Small cfg t) (bid : Nat) :
    Agrees cfg (l.forget bid) (SlotIndex.forget cfg t bid) ∧
      Small cfg (SlotIndex.forget cfg t bid) := by
  have a' := a.forget (hs bid)
  have hsub : (l.forget bid).nBuckets = l.nBuckets ∧
      (l.forget bid).entries.Sublist l.entries := by
    rw [Ledger.forget]
    split
    . exact ⟨rfl, List.filter_sublist⟩
    . exact ⟨rfl, List.Sublist.refl _⟩
  exact ⟨a', fun b => lt_of_le_of_lt (a.countOf_le a' hsub.1 hsub.2 b) (hs b)⟩

theorem Agrees.drop_step (a : Agrees cfg l t) (hs : Small cfg t) {id : Nat} (hid : id ≠ 0) :
    Agrees cfg (l.drop id) (SlotIndex.drop cfg t id) ∧ Small cfg (SlotIndex.drop cfg t id) := by
  have a' := a.drop hid
  exact ⟨a', fun b => lt_of_le_of_lt (a.countOf_le a' rfl List.filter_sublist b) (hs b)⟩

theorem Agrees.put_step (a : Agrees cfg l t) (hs : Small cfg t) {id : Nat} (hid : id ≠ 0) (off : Nat)
    (hspare : countOf cfg t (t.bucketOf id) < 65535 ∨ (∃ i, t.ids i = id) ∨ maxFill cfg ≤ t.used) :
    Agrees cfg (l.put cfg id off) (SlotIndex.put cfg t id off) ∧
      Small cfg (SlotIndex.put cfg t id off) :=
  ⟨a.put hid off, hs.put a.ordered hid off hspare⟩

theorem Agrees.learn_step (a : Agrees cfg l t) (hs : Small cfg t) {id : Nat} (hid : id ≠ 0)
    (off : Option UInt32) :
    (∀ o, off = some o → countOf cfg t (t.bucketOf id) < 65535 ∨ (∃ i, t.ids i = id) ∨
      maxFill cfg ≤ t.used) →
    Agrees cfg
        (match off with
        | some o => l.put cfg id o.toNat
        | none => l)
        (match off.map UInt32.toNat with
        | some o => SlotIndex.put cfg t id o
        | none => t) ∧
      Small cfg
        (match off.map UInt32.toNat with
        | some o => SlotIndex.put cfg t id o
        | none => t) := by
  intro hspare
  cases off with
  | some o => exact a.put_step hs hid o.toNat (hspare o rfl)
  | none => exact ⟨a, hs⟩

theorem toNat_ne_zero {id : UInt64} (h : id ≠ 0) : id.toNat ≠ 0 := by
  intro h0
  exact h (UInt64.toNat_inj.mp h0)

-- One call keeps the index and the ledger together.
theorem Agrees.step (a : Agrees cfg l t) (hs : Small cfg t) {op : Op} (hop : op.Named)
    (hspare : Spare cfg t op) :
    Agrees cfg (l.step cfg op) (SlotIndex.step cfg t op) ∧ Small cfg (SlotIndex.step cfg t op) := by
  cases op with
  | reset nBuckets =>
    have hsmall : ∀ n, Small cfg (SlotIndex.empty n) := by
      intro n b
      rw [(agrees_empty cfg n).countOf_eq]
      exact Nat.zero_lt_succ _
    rw [Ledger.step, SlotIndex.step, reset]
    split
    . exact ⟨agrees_empty cfg 0, hsmall 0⟩
    . exact ⟨agrees_empty cfg _, hsmall _⟩
  | forget bid => exact a.forget_step hs bid.toNat
  | begin bid dataOff =>
    obtain ⟨a', hs'⟩ := a.forget_step hs bid.toNat
    rw [Ledger.step, SlotIndex.step, SlotIndex.begin, a.on_eq]
    split
    . dsimp only
      rw [← a'.cursor]
      exact ⟨a'.at_cursor _, hs'⟩
    . exact ⟨a, hs⟩
  | note bid id off size tombstone =>
    have hid := toNat_ne_zero hop
    rw [Ledger.step, SlotIndex.step, SlotIndex.note, a.on_eq, ← a.cursor]
    split
    . exact ⟨a, hs⟩
    . next hon =>
      split
      . exact a.forget_step hs _
      . next hoff =>
        dsimp only
        generalize set t.cursor bid.toNat ((off.toNat + size.toNat) % 2 ^ 32) = cursor
        cases tombstone with
        | true =>
          rw [if_pos rfl, if_pos rfl]
          exact (a.at_cursor cursor).drop_step hs hid
        | false =>
          rw [if_neg Bool.false_ne_true, if_neg Bool.false_ne_true]
          refine (a.at_cursor cursor).put_step hs hid _ (hspare id.toNat off.toNat ?_)
          rw [asks, if_neg hon, if_neg (not_or.mpr ⟨hoff, Bool.false_ne_true⟩)]
  | learn bid id off cursor =>
    have hid := toNat_ne_zero hop
    rw [Ledger.step, SlotIndex.step, SlotIndex.learn, a.on_eq, ← a.cursor]
    split
    . exact ⟨a, hs⟩
    . next hon =>
      split
      . exact a.forget_step hs _
      . next hcur =>
        have hput : ∀ o, off = some o → countOf cfg t (t.bucketOf id.toNat) < 65535 ∨
            (∃ i, t.ids i = id.toNat) ∨ maxFill cfg ≤ t.used := by
          rintro o rfl
          refine hspare id.toNat o.toNat ?_
          rw [asks, if_neg hon, if_neg hcur]
          rfl
        by_cases hfresh : t.cursor bid.toNat = 0
        . rw [if_pos hfresh, if_pos hfresh]
          generalize set t.cursor bid.toNat cursor.toNat = c
          exact (a.at_cursor c).learn_step hs hid off hput
        . rw [if_neg hfresh, if_neg hfresh]
          exact a.learn_step hs hid off hput

theorem Agrees.run (a : Agrees cfg l t) (hs : Small cfg t) {ops : List Op}
    (hnamed : ∀ op ∈ ops, op.Named) (hspared : Spared cfg t ops) :
    Agrees cfg (ops.foldl (Ledger.step cfg) l) (runOps cfg t ops) ∧ Small cfg (runOps cfg t ops) := by
  induction ops generalizing l t with
  | nil => exact ⟨a, hs⟩
  | cons op ops ih =>
    obtain ⟨a', hs'⟩ := a.step hs (hnamed op List.mem_cons_self) hspared.1
    exact ih a' hs' (fun op h => hnamed op (List.mem_cons_of_mem _ h)) hspared.2

theorem Ordered.countOf_le_used (h : Ordered cfg t) (b : Nat) : countOf cfg t b ≤ t.used := by
  rw [h.used]
  unfold countOf Probing.count
  apply Finset.sum_le_sum
  intro i _
  cases t.view i with
  | none => exact Nat.le_refl _
  | some p => exact Bool.toNat_le _

-- A table of up to 65536 cells has no bucket that its count is too narrow for.
theorem Agrees.spared (a : Agrees cfg l t) (hcap : cap cfg ≤ 65536) {ops : List Op}
    (hnamed : ∀ op ∈ ops, op.Named) : Spared cfg t ops := by
  induction ops generalizing l t with
  | nil => trivial
  | cons op ops ih =>
    have hsmall : Small cfg t := fun b => lt_of_lt_of_le (a.ordered.countOf_lt b) hcap
    have hspare : Spare cfg t op := by
      intro id off _
      have hle := a.ordered.countOf_le_used (t.bucketOf id)
      by_cases hfull : maxFill cfg ≤ t.used
      . exact .inr (.inr hfull)
      . left
        have hpos := cap_pos cfg
        unfold maxFill at hfull
        omega
    exact ⟨hspare, ih (a.step hsmall (hnamed op List.mem_cons_self) hspare).1
      fun op h => hnamed op (List.mem_cons_of_mem _ h)⟩

end

/-! The whole of it -/

-- The index as it is meant to be after the calls `ops`.
structure Accurate (cfg : Cfg) (ops : List Op) (t : SlotIndex) : Prop where
  found : ∀ id off, id ≠ 0 → ((∃ i, find cfg t id = some i ∧ t.offs i = off) ↔
    (id, off) ∈ (ledger cfg ops).entries)
  used : t.used = Probing.count (cap cfg) (fun _ => true) t.view
  room : t.used < cap cfg
  bcnt : ∀ b, t.bcnt b = countOf cfg t b
  forgets : ∀ b, t.on b = true → ∀ id off,
    (SlotIndex.forget cfg t b).Cell id off ↔ t.Cell id off ∧ t.bucketOf id ≠ b
  searches : ∀ id, ∃ x, x < cap cfg ∧ (t.ids x = id ∨ t.ids x = 0) ∧
    putCell cfg t id (cap cfg) (home cfg id) = (x, t.ids x == id)
  closes : ∀ cursor i, t.ids i ≠ 0 → GapLoop cfg (cleared { t with cursor := cursor } i) i i
    (removeAt cfg { t with cursor := cursor } i)
  sweeps : ∀ b, t.on b = true → ForgetLoop cfg b { t with cursor := set t.cursor b 0 } 0
    (SlotIndex.forget cfg t b)

theorem Agrees.accurate {cfg : Cfg} {ops : List Op} {t : SlotIndex}
    (a : Agrees cfg (ledger cfg ops) t) (hs : Small cfg t) : Accurate cfg ops t where
  found id off hid := by
    rw [← a.cells]
    constructor
    . rintro ⟨i, hi, rfl⟩
      exact find_cell hid hi
    . rintro ⟨-, i, hi, rfl⟩
      exact ⟨i, (a.ordered.find_iff hid).mpr hi, rfl⟩
  used := a.ordered.used
  room := lt_of_le_of_lt a.ordered.room (maxFill_lt cfg)
  bcnt b := (a.ordered.bcnt b).trans (Nat.mod_eq_of_lt (hs b))
  forgets b hon _ _ := a.ordered.forget_cells (hs b) hon
  searches id := by
    obtain ⟨x, hx, hlt, hstop, -⟩ := a.ordered.search id
    exact ⟨x, hlt, by simpa [stopsAt] using hstop, putCell_eq cfg t hx⟩
  closes cursor _ hi := (ordered_cursor a.ordered cursor).gapLoop hi
  sweeps b hon := by
    rw [SlotIndex.forget, if_pos hon]
    exact (a.ordered.forget_loop b).1

/-- Over every run of the calls the index holds what was put and not since dropped, its counts are
right and its loops end, as long as no bucket that has 65535 cells is given another one. -/
theorem index_runs (cfg : Cfg) (ops : List Op) (hnamed : ∀ op ∈ ops, op.Named)
    (hspared : Spared cfg (SlotIndex.empty 0) ops) :
    Accurate cfg ops (runOps cfg (SlotIndex.empty 0) ops) := by
  have hsmall : Small cfg (SlotIndex.empty 0) := by
    intro b
    rw [(agrees_empty cfg 0).countOf_eq]
    exact Nat.zero_lt_succ _
  obtain ⟨a, hs⟩ := (agrees_empty cfg 0).run hsmall hnamed hspared
  exact a.accurate hs

-- Two buckets: a slot is learnt of, another one appended, the first bucket forgotten.
def twoBuckets : List Op :=
  [.reset 2, .learn 1 5 (some 64) 100, .note 1 7 100 20 false, .forget 0]

theorem index_runs_two : Accurate smallDevice twoBuckets
    (runOps smallDevice (SlotIndex.empty 0) twoBuckets) :=
  index_runs smallDevice twoBuckets (by decide)
    ((agrees_empty smallDevice 0).spared (by decide) (by decide))

/-! A bucket with more cells than its count can say -/

-- One bucket, and `n` ids of it that a walk tells of.
def crowd (n : Nat) : List Op :=
  .reset 1 :: (List.range n).map fun k => .learn 0 (UInt64.ofNat (k + 1)) (some 64) 100

theorem crowd_succ (cfg : Cfg) (t : SlotIndex) (n : Nat) :
    runOps cfg t (crowd (n + 1)) =
      step cfg (runOps cfg t (crowd n)) (.learn 0 (UInt64.ofNat (n + 1)) (some 64) 100) := by
  rw [crowd, List.range_succ, List.map_append, ← List.cons_append, runOps, List.foldl_append]
  rfl

-- Each of them takes a cell.
theorem crowd_cells {n : Nat} (hn : n ≤ 65536) :
    let t := runOps crowdedDevice (SlotIndex.empty 0) (crowd n)
    Ordered crowdedDevice t ∧ t.nBuckets = 1 ∧ (t.cursor 0 = 0 ∨ t.cursor 0 = 100) ∧
      (∀ i, t.ids i ≤ n) ∧ t.used = n := by
  have hcap : maxFill crowdedDevice = 114688 := by decide
  induction n with
  | zero =>
    exact ⟨ordered_empty _ _, rfl, .inl rfl, fun _ => le_of_eq rfl, rfl⟩
  | succ n ih =>
    dsimp only
    rw [crowd_succ]
    obtain ⟨hord, hbuckets, hcursor, hids, hused⟩ := ih (by omega)
    generalize runOps crowdedDevice (SlotIndex.empty 0) (crowd n) = t at *
    have hid : (UInt64.ofNat (n + 1)).toNat = n + 1 :=
      UInt64.toNat_ofNat_of_lt' (show n + 1 < 2 ^ 64 by omega)
    have hknown : (!t.on 0 || 100 == 0) = false := by
      rw [SlotIndex.on, hbuckets]
      rfl
    have hsame : ¬ (t.cursor 0 ≠ 0 ∧ t.cursor 0 ≠ 100) := fun h =>
      hcursor.elim h.1 h.2
    have hput : ∀ cursor, (cursor 0 = 0 ∨ cursor 0 = 100) → ∀ t' : SlotIndex,
        t' = SlotIndex.put crowdedDevice { t with cursor := cursor } (n + 1) 64 →
        Ordered crowdedDevice t' ∧ t'.nBuckets = 1 ∧ (t'.cursor 0 = 0 ∨ t'.cursor 0 = 100) ∧
          (∀ i, t'.ids i ≤ n + 1) ∧ t'.used = n + 1 := by
      rintro cursor hcur _ rfl
      have hord' := ordered_cursor hord cursor
      refine ⟨hord'.put (Nat.succ_ne_zero n) 64, (put_cursor _ _ _).2.trans hbuckets, ?_, ?_⟩
      . rw [(put_cursor _ _ _).1]
        exact hcur
      . rcases hord'.put_cases (Nat.succ_ne_zero n) 64 with ⟨x, hx, -⟩ | ⟨-, hfull, -⟩ |
          ⟨-, -, x, -, -, -, heq⟩
        . have := hids x
          exact absurd hx (by dsimp only; omega)
        . exact absurd hfull (by dsimp only; omega)
        . rw [heq]
          refine ⟨fun i => ?_, ?_⟩
          . dsimp only [set]
            split
            . exact le_rfl
            . exact Nat.le_succ_of_le (hids i)
          . dsimp only
            rw [hused, Nat.mod_eq_of_lt (by omega)]
    have hlearn : step crowdedDevice t (.learn 0 (UInt64.ofNat (n + 1)) (some 64) 100) =
        learn crowdedDevice t 0 (n + 1) (some 64) 100 := by
      show learn crowdedDevice t 0 (UInt64.ofNat (n + 1)).toNat (some 64) 100 = _
      rw [hid]
    rw [hlearn, SlotIndex.learn, if_neg (Bool.eq_false_iff.mp hknown), if_neg hsame]
    by_cases hfresh : t.cursor 0 = 0
    . exact hput (set t.cursor 0 100) (.inr rfl) _ (by rw [if_pos hfresh])
    . exact hput t.cursor hcursor _ (by rw [if_neg hfresh])

theorem crowd_named (n : Nat) (hn : n ≤ 65536) : ∀ op ∈ crowd n, op.Named := by
  intro op hop
  rcases List.mem_cons.mp hop with rfl | hop
  . trivial
  . obtain ⟨k, hk, rfl⟩ := List.mem_map.mp hop
    have hlt := List.mem_range.mp hk
    intro h0
    have hid : (UInt64.ofNat (k + 1)).toNat = k + 1 :=
      UInt64.toNat_ofNat_of_lt' (show k + 1 < 2 ^ 64 by omega)
    rw [h0] at hid
    exact absurd hid (by simp)

theorem crowd_not_counted :
    ¬ ∀ (cfg : Cfg) (ops : List Op), (∀ op ∈ ops, op.Named) →
      Accurate cfg ops (runOps cfg (SlotIndex.empty 0) ops) := by
  intro h
  have hacc := h crowdedDevice (crowd 65536) (crowd_named _ le_rfl)
  obtain ⟨hord, hbuckets, -, -, hused⟩ := crowd_cells (le_refl 65536)
  generalize runOps crowdedDevice (SlotIndex.empty 0) (crowd 65536) = t at *
  have hall : countOf crowdedDevice t 0 = t.used := by
    rw [hord.used, countOf]
    congr 1
    funext p
    rw [bucketOf, hbuckets, Nat.mod_one]
    rfl
  have hmod := hord.bcnt 0
  rw [hacc.bcnt 0, hall, hused] at hmod
  omega

end SlotIndex

end KeyValueDb.BlobDb
