import KeyValueDb.Lib.Probing
import KeyValueDb.BlobDb.IndexTable

/-!
The table of the slot index in order: what is put is found, what is dropped or forgotten is gone, and
the counts are right.
-/

namespace KeyValueDb.BlobDb

namespace SlotIndex

variable {cfg : Cfg} {t : SlotIndex}

def view (t : SlotIndex) : Probing.Cells Nat Nat := fun i =>
  if t.ids i = 0 then none else some (t.ids i, t.offs i)

-- How many cells name an id of bucket `b`.
def countOf (cfg : Cfg) (t : SlotIndex) (b : Nat) : Nat :=
  Probing.count (cap cfg) (fun p => t.bucketOf p.1 == b) t.view

structure Ordered (cfg : Cfg) (t : SlotIndex) : Prop where
  chained : Probing.Chained (cap cfg) (home cfg) t.view
  used : t.used = Probing.count (cap cfg) (fun _ => true) t.view
  room : t.used ≤ maxFill cfg
  bcnt : ∀ b, t.bcnt b = countOf cfg t b % 65536

theorem view_some {i id off : Nat} :
    t.view i = some (id, off) ↔ id ≠ 0 ∧ t.ids i = id ∧ t.offs i = off := by
  unfold view
  split
  . next h =>
    constructor
    . intro hn
      cases hn
    . rintro ⟨hid, rfl, -⟩
      exact absurd h hid
  . next h =>
    simp only [Option.some.injEq, Prod.mk.injEq]
    constructor
    . rintro ⟨rfl, rfl⟩
      exact ⟨h, rfl, rfl⟩
    . exact fun h => h.2

theorem view_none {i : Nat} : t.view i = none ↔ t.ids i = 0 := by
  unfold view
  split
  . next h => simp [h]
  . next h => simp [h]

theorem cell_iff {id off : Nat} : t.Cell id off ↔ ∃ i, t.view i = some (id, off) := by
  constructor
  . rintro ⟨hid, i, hi, ho⟩
    exact ⟨i, view_some.mpr ⟨hid, hi, ho⟩⟩
  . rintro ⟨i, hi⟩
    obtain ⟨hid, hi, ho⟩ := view_some.mp hi
    exact ⟨hid, i, hi, ho⟩

theorem cap_pos (cfg : Cfg) : 64 ≤ cap cfg := cfg.entries_range.1

theorem home_lt (cfg : Cfg) (id : Nat) : home cfg id < cap cfg :=
  Nat.mod_lt _ (by have h := cap_pos cfg; omega)

theorem maxFill_lt (cfg : Cfg) : maxFill cfg < cap cfg := by
  have h := cap_pos cfg
  unfold maxFill
  omega

theorem cap_le (cfg : Cfg) : cap cfg ≤ 1048576 := cfg.entries_range.2

theorem ordered_empty (cfg : Cfg) (n : Nat) : Ordered cfg (SlotIndex.empty n) := by
  have hview : (SlotIndex.empty n).view = fun _ => none := by
    funext i
    rfl
  have hcount : ∀ q : Nat × Nat → Bool, Probing.count (cap cfg) q (SlotIndex.empty n).view = 0 := by
    intro q
    rw [hview]
    simp [Probing.count]
  constructor
  . rw [hview]
    exact Probing.chained_empty
  . rw [hcount]
    rfl
  . exact Nat.zero_le _
  . intro b
    unfold countOf
    rw [hcount]
    rfl

theorem Ordered.free (h : Ordered cfg t) : ∃ e, e < cap cfg ∧ t.view e = none :=
  Probing.exists_free (by rw [← h.used]; exact lt_of_le_of_lt h.room (maxFill_lt cfg))

/-! Searching -/

theorem stays_iff (i j h : Nat) : stays i j h = true ↔ Probing.After i j h := by
  unfold stays Probing.After
  split
  . next hij =>
    simp only [Bool.and_eq_true, decide_eq_true_eq]
    omega
  . next hij =>
    simp only [Bool.or_eq_true, decide_eq_true_eq]
    omega

-- A search stops at the id or at an empty cell.
def stopsAt (t : SlotIndex) (id i : Nat) : Bool := t.ids i == id || t.ids i == 0

theorem findFrom_eq (t : SlotIndex) (id n i : Nat) :
    findFrom cfg t id n i =
      (Probing.probe (cap cfg) (t.stopsAt id) n i).filter fun i => t.ids i == id := by
  induction n generalizing i with
  | zero => rfl
  | succ n ih =>
    unfold findFrom Probing.probe stopsAt
    by_cases h1 : t.ids i = id
    . simp [h1, Option.filter]
    . by_cases h0 : t.ids i = 0
      . have hne : 0 ≠ id := h0 ▸ h1
        simp [h0, hne, Option.filter]
      . simp only [h1, h0, if_false, beq_iff_eq, Bool.or_eq_true, or_self]
        exact ih _

theorem putCell_eq (cfg : Cfg) (t : SlotIndex) {id n i x : Nat}
    (hx : Probing.probe (cap cfg) (t.stopsAt id) n i = some x) :
    putCell cfg t id n i = (x, t.ids x == id) := by
  induction n generalizing i with
  | zero => cases hx
  | succ n ih =>
    unfold Probing.probe stopsAt at hx
    unfold putCell
    by_cases h1 : t.ids i = id
    . simp only [h1, beq_self_eq_true, Bool.true_or, if_true] at hx ⊢
      cases hx
      simp [h1]
    . by_cases h0 : t.ids i = 0
      . simp only [h0, beq_self_eq_true, Bool.or_true, if_true] at hx
        cases hx
        rw [if_neg h1, if_pos h0]
        simp [h1]
      . have hno : (t.ids i == id || t.ids i == 0) = false := by simp [h1, h0]
        rw [hno] at hx
        rw [if_neg h1, if_neg h0]
        exact ih hx

-- Where the search for an id ends.
theorem Ordered.search (h : Ordered cfg t) (id : Nat) :
    ∃ x, Probing.probe (cap cfg) (t.stopsAt id) (cap cfg) (home cfg id) = some x ∧ x < cap cfg ∧
      t.stopsAt id x = true ∧
      ∀ y, y < cap cfg → Probing.Arc (home cfg id) x y → t.stopsAt id y = false := by
  obtain ⟨e, he, hfree⟩ := h.free
  refine Probing.probe_first (home_lt cfg id) he ?_
  unfold stopsAt
  rw [view_none.mp hfree]
  simp

-- It ends in the cell of the id, if there is one.
theorem Ordered.search_cell (h : Ordered cfg t) {id i x : Nat} (hid : id ≠ 0) (hi : t.ids i = id)
    (hx : Probing.probe (cap cfg) (t.stopsAt id) (cap cfg) (home cfg id) = some x) : x = i := by
  obtain ⟨x', hx', hlt, hstop, hfirst⟩ := h.search id
  rw [hx] at hx'
  cases hx'
  have hcell : t.view i = some (id, t.offs i) := view_some.mpr ⟨hid, hi, rfl⟩
  refine Probing.first_unique hlt (h.chained.lt hcell) hstop ?_ hfirst ?_
  . unfold stopsAt
    simp [hi]
  . intro y hy ha
    have hne := h.chained.chain hcell hy ha
    have hy0 : t.ids y ≠ 0 := fun h0 => hne (view_none.mpr h0)
    have hyid : t.ids y ≠ id := by
      intro heq
      have hyi := h.chained.unique (view_some.mpr ⟨hid, heq, rfl⟩) hcell
      rw [hyi] at ha
      unfold Probing.Arc at ha
      omega
    simp [stopsAt, hy0, hyid]

theorem Ordered.find_iff (h : Ordered cfg t) {id i : Nat} (hid : id ≠ 0) :
    find cfg t id = some i ↔ t.ids i = id := by
  obtain ⟨x, hx, -, -, -⟩ := h.search id
  unfold find
  rw [findFrom_eq, hx]
  constructor
  . intro hf
    simp only [Option.filter_some] at hf
    split at hf
    . next heq =>
      cases hf
      simpa using heq
    . cases hf
  . intro hi
    rw [h.search_cell hid hi hx]
    simp [hi]

/-! Removing -/

theorem closeGap_succ (n : Nat) (t : SlotIndex) (i j : Nat) :
    closeGap cfg (n + 1) t i j =
      let j := Probing.next (cap cfg) j
      if t.ids j = 0 then t
      else if stays i j (home cfg (t.ids j)) then closeGap cfg n t i j
      else closeGap cfg n
        { t with ids := set (set t.ids i (t.ids j)) j 0, offs := set t.offs i (t.offs j) } j j := rfl

theorem view_moved (t : SlotIndex) {i j : Nat} (hj : t.ids j ≠ 0) :
    view { t with ids := set (set t.ids i (t.ids j)) j 0, offs := set t.offs i (t.offs j) } =
      Probing.move t.view i j := by
  funext x
  have hsome : t.view j = some (t.ids j, t.offs j) := view_some.mpr ⟨hj, rfl, rfl⟩
  unfold Probing.move
  rw [hsome]
  by_cases hxj : x = j
  . simp [view, set, hxj]
  . by_cases hxi : x = i
    . simp [view, set, hxi, hxi ▸ hxj, hj]
    . simp [view, set, hxi, hxj]

theorem view_closeGap (n : Nat) (t : SlotIndex) (i j : Nat) :
    (closeGap cfg n t i j).view = Probing.closeGap (cap cfg) (home cfg) n t.view i j := by
  induction n generalizing t i j with
  | zero => rfl
  | succ n ih =>
    rw [closeGap_succ]
    simp only
    by_cases h0 : t.ids (Probing.next (cap cfg) j) = 0
    . rw [if_pos h0]
      simp only [Probing.closeGap, view_none.mpr h0]
    . have hsome : t.view (Probing.next (cap cfg) j) = some _ := view_some.mpr ⟨h0, rfl, rfl⟩
      rw [if_neg h0]
      simp only [Probing.closeGap, hsome]
      by_cases hs : stays i (Probing.next (cap cfg) j)
          (home cfg (t.ids (Probing.next (cap cfg) j))) = true
      . rw [if_pos hs, if_pos ((stays_iff ..).mp hs)]
        exact ih _ _ _
      . rw [if_neg hs, if_neg (fun ha => hs ((stays_iff ..).mpr ha)), ih, view_moved t h0]

section

variable {i : Nat}

-- The table with cell `i` cleared.
theorem view_cleared (t : SlotIndex) (i : Nat) (bcnt : Nat → Nat) (used : Nat) :
    view { t with bcnt := bcnt, ids := set t.ids i 0, used := used } =
      Function.update t.view i none := by
  funext x
  by_cases hx : x = i
  . simp [view, set, hx]
  . simp [view, set, hx]

theorem view_removeAt (t : SlotIndex) (i : Nat) :
    (removeAt cfg t i).view = Probing.closeGap (cap cfg) (home cfg) (cap cfg)
      (Function.update t.view i none) i i := by
  unfold removeAt
  rw [view_closeGap, view_cleared]

theorem bucketOf_removeAt (t : SlotIndex) (i id : Nat) :
    (removeAt cfg t i).bucketOf id = t.bucketOf id := by
  unfold bucketOf
  rw [(removeAt_cursor t i).2]

theorem removeAt_counts (cfg : Cfg) (t : SlotIndex) (i : Nat) :
    (removeAt cfg t i).used = (t.used + (2 ^ 32 - 1)) % 2 ^ 32 ∧
      (removeAt cfg t i).bcnt = set t.bcnt (t.bucketOf (t.ids i))
        ((t.bcnt (t.bucketOf (t.ids i)) + 65535) % 65536) := by
  have hgap : ∀ n (t : SlotIndex) i j, (closeGap cfg n t i j).used = t.used ∧
      (closeGap cfg n t i j).bcnt = t.bcnt := by
    intro n
    induction n with
    | zero => exact fun _ _ _ => ⟨rfl, rfl⟩
    | succ n ih =>
      intro t i j
      unfold closeGap
      simp only
      split
      . exact ⟨rfl, rfl⟩
      . split
        . exact ih _ _ _
        . exact ih _ _ _
  exact hgap _ _ _ _

variable (h : Ordered cfg t) (hi : t.ids i ≠ 0)

include h hi

theorem Ordered.cell_lt : i < cap cfg := h.chained.lt (view_some.mpr ⟨hi, rfl, rfl⟩)

theorem Ordered.count_cleared (q : Nat × Nat → Bool) :
    Probing.count (cap cfg) q (removeAt cfg t i).view + (q (t.ids i, t.offs i)).toNat =
      Probing.count (cap cfg) q t.view := by
  have hlt := h.cell_lt hi
  rw [view_removeAt, Probing.closeGap_count (h.chained.gap hlt)]
  have hcount := Probing.count_update (c := t.view) (q := q) hlt none
  rw [view_some.mpr ⟨hi, rfl, rfl⟩] at hcount
  simpa using hcount

theorem Ordered.removeAt : Ordered cfg (SlotIndex.removeAt cfg t i) := by
  have hlt := h.cell_lt hi
  have hcell : t.view i = some (t.ids i, t.offs i) := view_some.mpr ⟨hi, rfl, rfl⟩
  obtain ⟨e, he, hfree⟩ := h.free
  have hei : e ≠ i := by
    rintro rfl
    rw [hfree] at hcell
    cases hcell
  obtain ⟨hused, hbcnt⟩ := removeAt_counts cfg t i
  have hall := h.count_cleared hi fun _ => true
  simp only [Bool.toNat_true] at hall
  have hold := h.used
  have hroom := h.room
  have hmax := maxFill_lt cfg
  have hcap := cap_le cfg
  constructor
  . rw [view_removeAt]
    refine Probing.closeGap_chained (h.chained.gap hlt) he ?_ hei (by omega)
    rw [Function.update_of_ne hei]
    exact hfree
  . rw [hused]
    omega
  . rw [hused]
    omega
  . intro b
    have hb := h.count_cleared hi fun p => t.bucketOf p.1 == b
    have hbold := h.bcnt b
    unfold countOf at hbold ⊢
    simp only [bucketOf_removeAt]
    rw [hbcnt]
    unfold set
    by_cases hbb : b = t.bucketOf (t.ids i)
    . subst hbb
      simp only [beq_self_eq_true, Bool.toNat_true] at hb
      rw [if_pos rfl]
      omega
    . rw [if_neg hbb]
      have hne : (t.bucketOf (t.ids i) == b) = false := by simp [Ne.symm hbb]
      simp only [hne, Bool.toNat_false] at hb
      omega

-- Only the cell that was removed is gone.
theorem Ordered.removeAt_cells {id off : Nat} :
    (SlotIndex.removeAt cfg t i).Cell id off ↔ t.Cell id off ∧ id ≠ t.ids i := by
  have hlt := h.cell_lt hi
  rw [cell_iff, view_removeAt, Probing.closeGap_mem (h.chained.gap hlt), cell_iff]
  constructor
  . rintro ⟨x, hx⟩
    rw [Function.update_apply] at hx
    split at hx
    . cases hx
    . next hxi =>
      refine ⟨⟨x, hx⟩, ?_⟩
      rintro rfl
      exact hxi (h.chained.unique hx (view_some.mpr ⟨hi, rfl, rfl⟩))
  . rintro ⟨⟨x, hx⟩, hne⟩
    refine ⟨x, ?_⟩
    rw [Function.update_of_ne]
    . exact hx
    . rintro rfl
      exact hne (view_some.mp hx).2.1.symm

end

theorem Ordered.drop (h : Ordered cfg t) {id : Nat} (hid : id ≠ 0) :
    Ordered cfg (SlotIndex.drop cfg t id) := by
  unfold SlotIndex.drop
  split
  . next i hf =>
    apply h.removeAt
    rw [(h.find_iff hid).mp hf]
    exact hid
  . exact h

theorem Ordered.drop_cells (h : Ordered cfg t) {id id' off : Nat} (hid : id ≠ 0) :
    (SlotIndex.drop cfg t id).Cell id' off ↔ t.Cell id' off ∧ id' ≠ id := by
  unfold SlotIndex.drop
  split
  . next i hf =>
    have hi := (h.find_iff hid).mp hf
    rw [h.removeAt_cells (by rw [hi]; exact hid), hi]
  . next hf =>
    refine ⟨fun hc => ⟨hc, ?_⟩, fun hc => hc.1⟩
    rintro rfl
    obtain ⟨-, i, hi, -⟩ := hc
    rw [(h.find_iff hid).mpr hi] at hf
    cases hf

/-! Putting -/

-- A search for an id that is there ends in its cell, one for another id in the first free cell.
theorem Ordered.put_cases (h : Ordered cfg t) {id : Nat} (hid : id ≠ 0) (off : Nat) :
    (∃ x, t.ids x = id ∧ SlotIndex.put cfg t id off = { t with offs := set t.offs x off }) ∨
    ((∀ i, t.ids i ≠ id) ∧ maxFill cfg ≤ t.used ∧ SlotIndex.put cfg t id off = t) ∨
    ((∀ i, t.ids i ≠ id) ∧ t.used < maxFill cfg ∧ ∃ x, x < cap cfg ∧ t.ids x = 0 ∧
      (∀ y, y < cap cfg → Probing.Arc (home cfg id) x y → t.view y ≠ none) ∧
      SlotIndex.put cfg t id off = { t with
        ids := set t.ids x id
        offs := set t.offs x off
        used := (t.used + 1) % 2 ^ 32
        bcnt := set t.bcnt (t.bucketOf id) ((t.bcnt (t.bucketOf id) + 1) % 65536) }) := by
  obtain ⟨x, hx, hlt, hstop, hfirst⟩ := h.search id
  have hput := putCell_eq cfg t hx
  by_cases hxid : t.ids x = id
  . left
    refine ⟨x, hxid, ?_⟩
    simp [SlotIndex.put, hput, hxid]
  . right
    have hnew : ∀ i, t.ids i ≠ id := by
      intro i hi
      rw [h.search_cell hid hi hx] at hxid
      exact hxid hi
    have hx0 : t.ids x = 0 := by simpa [stopsAt, hxid] using hstop
    have hne : (t.ids x == id) = false := by simp [hxid]
    by_cases hfull : maxFill cfg ≤ t.used
    . refine .inl ⟨hnew, hfull, ?_⟩
      simp [SlotIndex.put, hput, hne, hfull]
    . refine .inr ⟨hnew, by omega, x, hlt, hx0, ?_, ?_⟩
      . intro y hy ha hnone
        have hno := hfirst y hy ha
        simp [stopsAt, view_none.mp hnone] at hno
      . simp [SlotIndex.put, hput, hne, hfull]

theorem view_offs (t : SlotIndex) {x id off : Nat} (hid : id ≠ 0) (hx : t.ids x = id) :
    view { t with offs := set t.offs x off } = Function.update t.view x (some (id, off)) := by
  funext y
  by_cases hy : y = x
  . simp [view, set, hy, hx, hid]
  . simp [view, set, hy]

theorem view_added (t : SlotIndex) {x id off used : Nat} {bcnt : Nat → Nat} (hid : id ≠ 0) :
    view { t with ids := set t.ids x id, offs := set t.offs x off, used := used, bcnt := bcnt } =
      Function.update t.view x (some (id, off)) := by
  funext y
  by_cases hy : y = x
  . simp [view, set, hy, hid]
  . simp [view, set, hy]

theorem Ordered.put (h : Ordered cfg t) {id : Nat} (hid : id ≠ 0) (off : Nat) :
    Ordered cfg (SlotIndex.put cfg t id off) := by
  have hmax := maxFill_lt cfg
  have hcap := cap_le cfg
  rcases h.put_cases hid off with ⟨x, hx, heq⟩ | ⟨-, -, heq⟩ | ⟨hnew, hroom, x, hlt, hx0, hfree, heq⟩
  . have hcell : t.view x = some (id, t.offs x) := view_some.mpr ⟨hid, hx, rfl⟩
    have hxlt := h.chained.lt hcell
    have hcount : ∀ q : Nat → Bool, Probing.count (cap cfg) (fun p => q p.1)
        (Function.update t.view x (some (id, off))) =
        Probing.count (cap cfg) (fun p => q p.1) t.view := by
      intro q
      have hc := Probing.count_update (c := t.view) (q := fun p => q p.1) hxlt (some (id, off))
      rw [hcell] at hc
      simp only [Option.any_some] at hc
      omega
    rw [heq]
    constructor
    . rw [view_offs t hid hx]
      exact h.chained.replace hcell
    . rw [view_offs t hid hx, hcount fun _ => true]
      exact h.used
    . exact h.room
    . intro b
      unfold countOf
      rw [view_offs t hid hx]
      have hb : Probing.count (cap cfg) (fun p => t.bucketOf p.1 == b)
          (Function.update t.view x (some (id, off))) = countOf cfg t b := hcount fun i => t.bucketOf i == b
      exact (h.bcnt b).trans (by rw [← hb]; rfl)
  . rw [heq]
    exact h
  . have hnone : t.view x = none := view_none.mpr hx0
    have hcount : ∀ q : Nat × Nat → Bool, Probing.count (cap cfg) q
        (Function.update t.view x (some (id, off))) =
        Probing.count (cap cfg) q t.view + (q (id, off)).toNat := by
      intro q
      have hc := Probing.count_update (c := t.view) (q := q) hlt (some (id, off))
      rw [hnone] at hc
      simpa using hc
    have hused := h.used
    rw [heq]
    constructor
    . rw [view_added t hid]
      refine h.chained.insert hlt hfree ?_
      intro i v hi
      exact hnew i (view_some.mp hi).2.1
    . rw [view_added t hid, hcount]
      simp only [Bool.toNat_true]
      omega
    . show (t.used + 1) % 2 ^ 32 ≤ maxFill cfg
      omega
    . intro b
      have hb := h.bcnt b
      unfold countOf at hb ⊢
      rw [view_added t hid]
      have hadd := hcount fun p => t.bucketOf p.1 == b
      have hgoal : set t.bcnt (t.bucketOf id) ((t.bcnt (t.bucketOf id) + 1) % 65536) b =
          Probing.count (cap cfg) (fun p => t.bucketOf p.1 == b)
            (Function.update t.view x (some (id, off))) % 65536 := by
        rw [hadd]
        unfold set
        by_cases hbb : b = t.bucketOf id
        . subst hbb
          rw [if_pos rfl]
          simp only [beq_self_eq_true, Bool.toNat_true]
          omega
        . have hne : (t.bucketOf id == b) = false := by simp [Ne.symm hbb]
          rw [if_neg hbb]
          simp only [hne, Bool.toNat_false]
          omega
      exact hgoal

-- After a put the id has one cell at most, which names the offset that was put.
theorem Ordered.put_cells (h : Ordered cfg t) {id id' off off' : Nat} (hid : id ≠ 0)
    (hc : (SlotIndex.put cfg t id off).Cell id' off') :
    (t.Cell id' off' ∧ id' ≠ id) ∨ (id' = id ∧ off' = off) := by
  rcases h.put_cases hid off with ⟨x, hx, heq⟩ | ⟨hnew, -, heq⟩ | ⟨hnew, -, x, -, -, -, heq⟩
  . rw [heq, cell_iff, view_offs t hid hx] at hc
    obtain ⟨y, hy⟩ := hc
    rw [Function.update_apply] at hy
    split at hy
    . cases hy
      exact .inr ⟨rfl, rfl⟩
    . next hyx =>
      refine .inl ⟨cell_iff.mpr ⟨y, hy⟩, ?_⟩
      rintro rfl
      exact hyx (h.chained.unique hy (view_some.mpr ⟨hid, hx, rfl⟩))
  . rw [heq] at hc
    refine .inl ⟨hc, ?_⟩
    rintro rfl
    obtain ⟨-, i, hi, -⟩ := hc
    exact hnew i hi
  . rw [heq, cell_iff, view_added t hid] at hc
    obtain ⟨y, hy⟩ := hc
    rw [Function.update_apply] at hy
    split at hy
    . cases hy
      exact .inr ⟨rfl, rfl⟩
    . refine .inl ⟨cell_iff.mpr ⟨y, hy⟩, ?_⟩
      rintro rfl
      exact hnew y (view_some.mp hy).2.1

/-! Forgetting -/

theorem forgetFrom_gone {bid n i : Nat} (h : Ordered cfg t)
    (hpast : ∀ x p, x < i → t.view x = some p → t.bucketOf p.1 ≠ bid)
    (hsmall : countOf cfg t bid < 65536) (hi : i ≤ cap cfg)
    (hn : cap cfg - i + countOf cfg t bid < n) :
    Ordered cfg (forgetFrom cfg bid n t i) ∧
      ∀ id off, (forgetFrom cfg bid n t i).Cell id off → t.Cell id off ∧ t.bucketOf id ≠ bid := by
  induction n generalizing t i with
  | zero => omega
  | succ n ih =>
    unfold forgetFrom
    split
    . next hgo =>
      split
      . next hcell =>
        have hremoved := h.removeAt hcell.1
        have hcount := h.count_cleared hcell.1 fun p => t.bucketOf p.1 == bid
        simp only [hcell.2, beq_self_eq_true, Bool.toNat_true] at hcount
        have hdown : countOf cfg (removeAt cfg t i) bid + 1 = countOf cfg t bid := by
          unfold countOf
          simp only [bucketOf_removeAt]
          exact hcount
        obtain ⟨e, he, hfree⟩ := h.free
        have hei : e ≠ i := by
          rintro rfl
          exact hcell.1 (view_none.mp hfree)
        have hbefore : ∀ x p, x < i → (removeAt cfg t i).view x = some p →
            (removeAt cfg t i).bucketOf p.1 ≠ bid := by
          intro x p hx hp
          rw [bucketOf_removeAt]
          rw [view_removeAt] at hp
          refine Probing.closeGap_before (Q := fun p => t.bucketOf p.1 ≠ bid)
            (h.chained.gap hgo.1) he ?_ hei hgo.1 ?_ (.inl rfl) ?_ x p hx hp
          . rw [Function.update_of_ne hei]
            exact hfree
          . unfold Probing.After
            omega
          . intro y r hy hr
            rw [Function.update_of_ne (by omega)] at hr
            exact hpast y r hy hr
        obtain ⟨hord, hcells⟩ := ih hremoved hbefore (by omega) hi (by omega)
        refine ⟨hord, ?_⟩
        intro id off hc
        obtain ⟨hc, hb⟩ := hcells id off hc
        rw [bucketOf_removeAt] at hb
        exact ⟨removeAt_cell hc, hb⟩
      . next hcell =>
        refine ih h ?_ hsmall (by omega) (by omega)
        intro x p hx hp
        by_cases hxi : x = i
        . subst hxi
          obtain ⟨id, off⟩ := p
          obtain ⟨hid, hids, -⟩ := view_some.mp hp
          intro hb
          rw [hids] at hcell
          exact hcell ⟨hid, hb⟩
        . exact hpast x p (by omega) hp
    . next hstop =>
      refine ⟨h, ?_⟩
      intro id off hc
      refine ⟨hc, ?_⟩
      obtain ⟨x, hx⟩ := cell_iff.mp hc
      have hxlt := h.chained.lt hx
      by_cases hic : i < cap cfg
      . -- the loop ended on the count
        have hzero : t.bcnt bid = 0 := by
          by_contra hne
          exact hstop ⟨hic, hne⟩
        rw [h.bcnt, Nat.mod_eq_of_lt hsmall] at hzero
        intro hb
        have hpos : 0 < countOf cfg t bid :=
          Probing.count_pos hxlt hx (by simpa using hb)
        omega
      . exact hpast x _ (by omega) hx

theorem Ordered.countOf_lt (h : Ordered cfg t) (b : Nat) : countOf cfg t b < cap cfg := by
  have hle : countOf cfg t b ≤ Probing.count (cap cfg) (fun _ => true) t.view := by
    unfold countOf Probing.count
    apply Finset.sum_le_sum
    intro i _
    cases t.view i with
    | none => exact Nat.le_refl _
    | some p => exact Bool.toNat_le _
  have hroom := h.room
  have hmax := maxFill_lt cfg
  rw [h.used] at hroom
  omega

-- Forgetting a bucket takes all of its cells away and no other one.
theorem Ordered.forget (h : Ordered cfg t) {bid : Nat} (hsmall : countOf cfg t bid < 65536) :
    Ordered cfg (SlotIndex.forget cfg t bid) ∧
      (t.on bid = true → ∀ id off, (SlotIndex.forget cfg t bid).Cell id off → t.bucketOf id ≠ bid) := by
  have hcap := h.countOf_lt bid
  have h' : Ordered cfg { t with cursor := set t.cursor bid 0 } := ⟨h.chained, h.used, h.room, h.bcnt⟩
  have hgone := forgetFrom_gone (n := 2 * cap cfg) (i := 0) h' (fun x _ hx => by omega) hsmall
    (Nat.zero_le _) (by
      have hc : countOf cfg { t with cursor := set t.cursor bid 0 } bid = countOf cfg t bid := rfl
      omega)
  unfold SlotIndex.forget
  split
  . exact ⟨hgone.1, fun _ id off hc => (hgone.2 id off hc).2⟩
  . next hoff => exact ⟨h, fun hon => absurd hon hoff⟩

end SlotIndex

end KeyValueDb.BlobDb
