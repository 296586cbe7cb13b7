import Mathlib.Algebra.BigOperators.Group.Finset.Piecewise
import Mathlib.Algebra.Order.BigOperators.Group.Finset
import Mathlib.Logic.Function.Basic

/-!
Open addressing with linear probing and backward-shift deletion. The cells `0 .. cap` form a circle,
a key starts its search in its home cell, and a table is in order if every cell from a key's home to
the cell that holds it is taken.
-/

namespace KeyValueDb.Probing

/-! The circle of cells -/

def next (cap i : Nat) : Nat := (i + 1) % cap

-- `x` is one of the cells from `h` on that come before `i`.
def Arc (h i x : Nat) : Prop := (h ≤ i ∧ h ≤ x ∧ x < i) ∨ (i < h ∧ (h ≤ x ∨ x < i))

-- `x` is one of the cells after `i` up to `j`.
def After (i j x : Nat) : Prop := (i ≤ j ∧ i < x ∧ x ≤ j) ∨ (j < i ∧ (i < x ∨ x ≤ j))

instance (i j x : Nat) : Decidable (After i j x) := inferInstanceAs (Decidable (_ ∨ _))

variable {cap : Nat}

theorem next_eq {i : Nat} (hi : i < cap) : next cap i = if i + 1 = cap then 0 else i + 1 := by
  unfold next
  split
  . next h => rw [h, Nat.mod_self]
  . exact Nat.mod_eq_of_lt (by omega)

theorem next_lt {i : Nat} (hi : i < cap) : next cap i < cap := Nat.mod_lt _ (by omega)

theorem arc_self (h x : Nat) : ¬ Arc h h x := by
  unfold Arc
  omega

-- Of two cells one comes first.
theorem arc_total (h : Nat) {x y : Nat} (hne : x ≠ y) : Arc h x y ∨ Arc h y x := by
  unfold Arc
  omega

/-! Probing -/

-- The first cell from `i` on that `p` stops at, in at most `n` steps.
def probe (cap : Nat) (p : Nat → Bool) : Nat → Nat → Option Nat
  | 0, _ => none
  | n + 1, i => if p i then some i else probe cap p n (next cap i)

theorem probe_from {p : Nat → Bool} {n h i e : Nat} (hi : i < cap) (he : e < cap)
    (hp : p e = true) (hpast : ∀ y, y < cap → Arc h i y → p y = false)
    (hahead : i = e ∨ Arc h e i) (hn : (i ≤ e ∧ e < n + i) ∨ (e < i ∧ e + cap < n + i)) :
    ∃ x, probe cap p n i = some x ∧ x < cap ∧ p x = true ∧
      ∀ y, y < cap → Arc h x y → p y = false := by
  induction n generalizing i with
  | zero => omega
  | succ n ih =>
    unfold probe
    split
    . next hpi => exact ⟨i, rfl, hi, hpi, hpast⟩
    . next hpi =>
      have hne : i ≠ e := by
        rintro rfl
        exact hpi hp
      have hlt := next_lt hi
      have hstep : (i + 1 = cap ∧ next cap i = 0) ∨ (i + 1 < cap ∧ next cap i = i + 1) := by
        rw [next_eq hi]
        split <;> omega
      generalize next cap i = i' at hlt hstep ⊢
      apply ih hlt
      . intro y hy hay
        by_cases hyi : y = i
        . subst hyi
          exact Bool.eq_false_iff.mpr hpi
        . apply hpast y hy
          unfold Arc at hay hahead ⊢
          omega
      . unfold Arc at hahead ⊢
        omega
      . omega

-- A probe finds a cell to stop at, and it is the first one.
theorem probe_first {p : Nat → Bool} {h e : Nat} (hh : h < cap) (he : e < cap) (hp : p e = true) :
    ∃ x, probe cap p cap h = some x ∧ x < cap ∧ p x = true ∧
      ∀ y, y < cap → Arc h x y → p y = false := by
  have hahead : h = e ∨ Arc h e h := by
    unfold Arc
    omega
  exact probe_from hh he hp (fun y _ ha => absurd ha (arc_self h y)) hahead (by omega)

theorem first_unique {p : Nat → Bool} {h x y : Nat} (hx : x < cap) (hy : y < cap)
    (hpx : p x = true) (hpy : p y = true) (hfx : ∀ z, z < cap → Arc h x z → p z = false)
    (hfy : ∀ z, z < cap → Arc h y z → p z = false) : x = y := by
  by_contra hne
  rcases arc_total h hne with ha | ha
  . rw [hfx y hy ha] at hpy
    cases hpy
  . rw [hfy x hx ha] at hpx
    cases hpx

/-! Tables -/

abbrev Cells (κ ν : Type) := Nat → Option (κ × ν)

section

variable {κ ν : Type} {home : κ → Nat} {c : Cells κ ν}

structure Chained (cap : Nat) (home : κ → Nat) (c : Cells κ ν) : Prop where
  range : ∀ i, cap ≤ i → c i = none
  unique : ∀ {i j k v v'}, c i = some (k, v) → c j = some (k, v') → i = j
  chain : ∀ {i k v x}, c i = some (k, v) → x < cap → Arc (home k) i x → c x ≠ none

theorem Chained.lt (h : Chained cap home c) {i : Nat} {p : κ × ν} (hi : c i = some p) : i < cap := by
  by_contra hge
  rw [h.range i (by omega)] at hi
  cases hi

theorem chained_empty : Chained cap home (fun _ => none : Cells κ ν) where
  range _ _ := rfl
  unique h := by cases h
  chain h := by cases h

-- A new key goes into the first free cell from its home on.
theorem Chained.insert (h : Chained cap home c) {x : Nat} {k : κ} {v : ν} (hx : x < cap)
    (hfree : ∀ y, y < cap → Arc (home k) x y → c y ≠ none) (hnew : ∀ i v, c i ≠ some (k, v)) :
    Chained cap home (Function.update c x (some (k, v))) := by
  constructor
  . intro i hi
    rw [Function.update_of_ne (by omega)]
    exact h.range i hi
  . intro i j k' v1 v2 hi hj
    rw [Function.update_apply] at hi hj
    split at hi
    . next hix =>
      cases hi
      split at hj
      . next hjx => rw [hix, hjx]
      . exact absurd hj (hnew j v2)
    . split at hj
      . cases hj
        exact absurd hi (hnew i v1)
      . exact h.unique hi hj
  . intro i k' v' y hi hy ha
    rw [Function.update_apply] at hi ⊢
    split
    . exact Option.some_ne_none _
    . split at hi
      . next hix =>
        cases hi
        exact hfree y hy (hix ▸ ha)
      . exact h.chain hi hy ha

-- A key may change its value in place.
theorem Chained.replace (h : Chained cap home c) {x : Nat} {k : κ} {v v' : ν} (hx : c x = some (k, v)) :
    Chained cap home (Function.update c x (some (k, v'))) := by
  constructor
  . intro i hi
    rw [Function.update_of_ne (by have hlt := h.lt hx; omega)]
    exact h.range i hi
  . intro i j k' v1 v2 hi hj
    rw [Function.update_apply] at hi hj
    split at hi
    . next hix =>
      cases hi
      split at hj
      . next hjx => rw [hix, hjx]
      . rw [hix]
        exact h.unique hx hj
    . split at hj
      . next hjx =>
        cases hj
        rw [hjx]
        exact h.unique hi hx
      . exact h.unique hi hj
  . intro i k' v1 y hi hy ha
    rw [Function.update_apply] at hi ⊢
    split
    . exact Option.some_ne_none _
    . split at hi
      . next hix =>
        cases hi
        exact h.chain hx hy (hix ▸ ha)
      . exact h.chain hi hy ha

/-! Deletion -/

-- The entry of cell `j` moved into cell `i`.
def move (c : Cells κ ν) (i j : Nat) : Cells κ ν := Function.update (Function.update c i (c j)) j none

-- Close the gap at `i`, looking at the cells from `j` on: an entry whose home does not lie after the
-- gap is pulled back into it and leaves the next gap.
def closeGap (cap : Nat) (home : κ → Nat) : Nat → Cells κ ν → Nat → Nat → Cells κ ν
  | 0, c, _, _ => c
  | n + 1, c, i, j =>
    match c (next cap j) with
    | none => c
    | some (k, _) =>
      if After i (next cap j) (home k) then closeGap cap home n c i (next cap j)
      else closeGap cap home n (move c i (next cap j)) (next cap j) (next cap j)

-- A table in order but for a gap at `i`, which only entries beyond `j` still have on their way.
structure Gap (cap : Nat) (home : κ → Nat) (c : Cells κ ν) (i j : Nat) : Prop where
  gap_lt : i < cap
  seen_lt : j < cap
  free : c i = none
  range : ∀ x, cap ≤ x → c x = none
  unique : ∀ {x y k v v'}, c x = some (k, v) → c y = some (k, v') → x = y
  run : ∀ x, x < cap → After i j x → c x ≠ none
  chain : ∀ {y k v x}, c y = some (k, v) → x < cap → Arc (home k) y x →
    c x ≠ none ∨ (x = i ∧ ¬ After i j y)

theorem Chained.gap (h : Chained cap home c) {i : Nat} (hi : i < cap) :
    Gap cap home (Function.update c i none) i i := by
  have hold : ∀ {x : Nat} {p : κ × ν}, Function.update c i none x = some p → c x = some p ∧ x ≠ i := by
    intro x p hx
    rw [Function.update_apply] at hx
    split at hx
    . cases hx
    . next hne => exact ⟨hx, hne⟩
  constructor
  . exact hi
  . exact hi
  . exact Function.update_self ..
  . intro x hx
    rw [Function.update_of_ne (by omega)]
    exact h.range x hx
  . exact fun hx hy => h.unique (hold hx).1 (hold hy).1
  . intro x _ ha
    unfold After at ha
    omega
  . intro y k v x hy hx ha
    by_cases hxi : x = i
    . refine .inr ⟨hxi, ?_⟩
      unfold After
      omega
    . left
      rw [Function.update_of_ne hxi]
      exact h.chain (hold hy).1 hx ha

section

variable {i j : Nat} (g : Gap cap home c i j)

include g

theorem Gap.next_cases : (j + 1 = cap ∧ next cap j = 0) ∨ (j + 1 < cap ∧ next cap j = j + 1) := by
  have hj := g.seen_lt
  rw [next_eq hj]
  split <;> omega

theorem Gap.lt {x : Nat} {p : κ × ν} (hx : c x = some p) : x < cap := by
  by_contra hge
  rw [g.range x (by omega)] at hx
  cases hx

-- Nothing lies beyond an empty cell.
theorem Gap.close (hj : c (next cap j) = none) : Chained cap home c := by
  refine ⟨g.range, g.unique, ?_⟩
  intro y k v x hy hx ha
  rcases g.chain hy hx ha with hx | ⟨rfl, hbeyond⟩
  . exact hx
  . exfalso
    have hyx : y ≠ x := by
      rintro rfl
      rw [g.free] at hy
      cases hy
    have hyj : y ≠ next cap j := by
      rintro rfl
      rw [hj] at hy
      cases hy
    have hylt := g.lt hy
    have hnlt := next_lt g.seen_lt
    have hstep := g.next_cases
    have hjlt := g.seen_lt
    generalize next cap j = j' at hj hyj hnlt hstep
    have harc : Arc (home k) y j' := by
      unfold Arc at ha ⊢
      unfold After at hbeyond
      omega
    rcases g.chain hy hnlt harc with hne | ⟨rfl, -⟩
    . exact hne hj
    . unfold After at hbeyond
      omega

-- An entry that may stay where it is.
theorem Gap.keep {k : κ} {v : ν} (hj : c (next cap j) = some (k, v))
    (hafter : After i (next cap j) (home k)) : Gap cap home c i (next cap j) := by
  have hnlt := next_lt g.seen_lt
  have hstep := g.next_cases
  have hjlt := g.seen_lt
  have hne : next cap j ≠ i := by
    intro heq
    rw [heq, g.free] at hj
    cases hj
  generalize next cap j = j' at hj hafter hnlt hstep hne ⊢
  refine ⟨g.gap_lt, hnlt, g.free, g.range, g.unique, ?_, ?_⟩
  . intro x hx ha
    by_cases hxj : x = j'
    . rw [hxj, hj]
      exact Option.some_ne_none _
    . apply g.run x hx
      unfold After at ha ⊢
      omega
  . intro y k' v' x hy hx ha
    by_cases hyj : y = j'
    . subst hyj
      rw [hj] at hy
      cases hy
      refine .inl fun hnone => ?_
      rcases g.chain hj hx ha with hsome | ⟨rfl, -⟩
      . exact hsome hnone
      . unfold Arc at ha
        unfold After at hafter
        omega
    . rcases g.chain hy hx ha with hsome | ⟨rfl, hbeyond⟩
      . exact .inl hsome
      . refine .inr ⟨rfl, ?_⟩
        have hylt := g.lt hy
        unfold After at hbeyond ⊢
        omega

omit g in
theorem move_some {x : Nat} {p : κ × ν} (hx : move c i j x = some p) :
    (x = i ∧ c j = some p) ∨ (x ≠ i ∧ x ≠ j ∧ c x = some p) := by
  unfold move at hx
  rw [Function.update_apply] at hx
  split at hx
  . cases hx
  . next hxj =>
    rw [Function.update_apply] at hx
    split at hx
    . next hxi => exact .inl ⟨hxi, hx⟩
    . next hxi => exact .inr ⟨hxi, hxj, hx⟩

-- An entry that is pulled back leaves a gap itself.
theorem Gap.pull {k : κ} {v : ν} (hj : c (next cap j) = some (k, v))
    (hafter : ¬ After i (next cap j) (home k)) :
    Gap cap home (move c i (next cap j)) (next cap j) (next cap j) := by
  have hnlt := next_lt g.seen_lt
  have hne : next cap j ≠ i := by
    intro heq
    rw [heq, g.free] at hj
    cases hj
  have hstep := g.next_cases
  have hjlt := g.seen_lt
  have hilt := g.gap_lt
  generalize next cap j = j' at hj hafter hnlt hne hstep ⊢
  have hat : ∀ x, x ≠ j' → c x ≠ none ∨ x = i → move c i j' x ≠ none := by
    intro x hxj hx
    unfold move
    rw [Function.update_of_ne hxj, Function.update_apply]
    split
    . rw [hj]
      exact Option.some_ne_none _
    . next hxi => exact hx.resolve_right hxi
  constructor
  . exact hnlt
  . exact hnlt
  . exact Function.update_self ..
  . intro x hx
    unfold move
    rw [Function.update_of_ne (by omega), Function.update_of_ne (by omega)]
    exact g.range x hx
  . intro x y k' v1 v2 hx hy
    rcases move_some hx with ⟨hxi, hx⟩ | ⟨-, hxj, hx⟩
    . rcases move_some hy with ⟨hyi, -⟩ | ⟨-, hyj, hy⟩
      . rw [hxi, hyi]
      . exact absurd (g.unique hx hy).symm hyj
    . rcases move_some hy with ⟨-, hy⟩ | ⟨-, -, hy⟩
      . exact absurd (g.unique hx hy) hxj
      . exact g.unique hx hy
  . intro x _ ha
    unfold After at ha
    omega
  . intro y k' v' x hy hx ha
    by_cases hxj : x = j'
    . refine .inr ⟨hxj, ?_⟩
      unfold After
      omega
    . refine .inl (hat x hxj ?_)
      rcases move_some hy with ⟨hyi, hy⟩ | ⟨-, -, hy⟩
      . -- the way to the gap is part of the way to `j'`
        rw [hj] at hy
        cases hy
        have harc : Arc (home k) j' x := by
          subst hyi
          unfold Arc at ha ⊢
          unfold After at hafter
          omega
        exact (g.chain hj hx harc).imp_right fun h => h.1
      . exact (g.chain hy hx ha).imp_right fun h => h.1

end

-- With another free cell ahead the gap closes.
theorem closeGap_chained {i j n e : Nat} (g : Gap cap home c i j)
    (he : e < cap) (hfree : c e = none) (hei : e ≠ i)
    (hn : (j < e ∧ e ≤ n + j) ∨ (e ≤ j ∧ e + cap ≤ n + j)) :
    Chained cap home (closeGap cap home n c i j) := by
  induction n generalizing c i j with
  | zero =>
    have hjlt := g.seen_lt
    omega
  | succ n ih =>
    have hstep := g.next_cases
    have hjlt := g.seen_lt
    have hahead : next cap j ≠ e → (next cap j < e ∧ e ≤ n + next cap j) ∨
        (e ≤ next cap j ∧ e + cap ≤ n + next cap j) := by
      intro hne
      omega
    unfold closeGap
    split
    . next hj => exact g.close hj
    . next k v hj =>
      have hne : next cap j ≠ e := by
        intro heq
        rw [heq, hfree] at hj
        cases hj
      split
      . next hafter => exact ih (g.keep hj hafter) hfree hei (hahead hne)
      . next hafter =>
        refine ih (g.pull hj hafter) ?_ (Ne.symm hne) (hahead hne)
        unfold move
        rw [Function.update_of_ne (Ne.symm hne), Function.update_of_ne hei]
        exact hfree

-- Closing a gap moves entries about and neither makes nor loses one.
theorem closeGap_mem {i j n : Nat} (g : Gap cap home c i j) (p : κ × ν) :
    (∃ x, closeGap cap home n c i j x = some p) ↔ ∃ x, c x = some p := by
  induction n generalizing c i j with
  | zero => exact Iff.rfl
  | succ n ih =>
    cases hj : c (next cap j) with
    | none => simp only [closeGap, hj]
    | some q =>
      obtain ⟨k, v⟩ := q
      simp only [closeGap, hj]
      split
      . next hafter => exact ih (g.keep hj hafter)
      . next hafter =>
        rw [ih (g.pull hj hafter)]
        constructor
        . intro ⟨x, hx⟩
          rcases move_some hx with ⟨-, h⟩ | ⟨-, -, h⟩
          . exact ⟨_, h⟩
          . exact ⟨_, h⟩
        . intro ⟨x, hx⟩
          have hxi : x ≠ i := by
            rintro rfl
            rw [g.free] at hx
            cases hx
          have hij : i ≠ next cap j := by
            intro heq
            rw [← heq, g.free] at hj
            cases hj
          by_cases hxj : x = next cap j
          . refine ⟨i, ?_⟩
            unfold move
            rw [Function.update_of_ne hij, Function.update_self, ← hxj]
            exact hx
          . refine ⟨x, ?_⟩
            unfold move
            rw [Function.update_of_ne hxj, Function.update_of_ne hxi]
            exact hx

-- The entries that come to lie before the cell that was freed lay there.
theorem closeGap_before {i₀ i j n e : Nat} {Q : κ × ν → Prop} (g : Gap cap home c i j)
    (he : e < cap) (hfree : c e = none) (hne : e ≠ i₀) (hi₀ : i₀ < cap) (hahead : ¬ After i₀ j e)
    (hgap : i = i₀ ∨ After i₀ j i) (hQ : ∀ x p, x < i₀ → c x = some p → Q p) (x : Nat) (p : κ × ν)
    (hx : x < i₀) (hp : closeGap cap home n c i j x = some p) : Q p := by
  induction n generalizing c i j with
  | zero => exact hQ x p hx hp
  | succ n ih =>
    cases hj : c (next cap j) with
    | none =>
      simp only [closeGap, hj] at hp
      exact hQ x p hx hp
    | some q =>
      obtain ⟨k, v⟩ := q
      have hstep := g.next_cases
      have hjlt := g.seen_lt
      have hje : next cap j ≠ e := by
        intro heq
        rw [heq, hfree] at hj
        cases hj
      have hahead' : ¬ After i₀ (next cap j) e := by
        unfold After at hahead ⊢
        omega
      simp only [closeGap, hj] at hp
      split at hp
      . next hafter =>
        refine ih (g.keep hj hafter) hfree hahead' ?_ hQ hp
        refine hgap.imp_right fun h => ?_
        unfold After at h hahead ⊢
        omega
      . next hafter =>
        refine ih (g.pull hj hafter) ?_ hahead' ?_ ?_ hp
        . unfold move
          rw [Function.update_of_ne (Ne.symm hje), Function.update_of_ne]
          . exact hfree
          . rintro rfl
            rcases hgap with h | h
            . exact hne h
            . exact hahead h
        . by_cases h : next cap j = i₀
          . exact .inl h
          . right
            unfold After at hahead ⊢
            omega
        . -- a gap before `i₀` lies beyond the end of the table, and the entry pulled into it too
          intro y r hy hr
          rcases move_some hr with ⟨rfl, hold⟩ | ⟨-, -, hold⟩
          . refine hQ _ r ?_ hold
            rcases hgap with h | h
            . omega
            . unfold After at h hahead
              omega
          . exact hQ y r hy hold

/-! Counting entries -/

def count (cap : Nat) (q : κ × ν → Bool) (c : Cells κ ν) : Nat :=
  ∑ i ∈ Finset.range cap, ((c i).any q).toNat

theorem count_update {q : κ × ν → Bool} {i : Nat} (hi : i < cap) (o : Option (κ × ν)) :
    count cap q (Function.update c i o) + ((c i).any q).toNat = count cap q c + (o.any q).toNat := by
  have hmem : i ∈ Finset.range cap := Finset.mem_range.mpr hi
  unfold count
  rw [← Finset.add_sum_erase _ _ hmem, ← Finset.add_sum_erase _ (fun i => ((c i).any q).toNat) hmem]
  have hrest : ∑ x ∈ (Finset.range cap).erase i, ((Function.update c i o x).any q).toNat =
      ∑ x ∈ (Finset.range cap).erase i, ((c x).any q).toNat := by
    apply Finset.sum_congr rfl
    intro x hx
    rw [Function.update_of_ne (Finset.ne_of_mem_erase hx)]
  rw [hrest, Function.update_self]
  omega

theorem closeGap_count {i j n : Nat} (g : Gap cap home c i j) (q : κ × ν → Bool) :
    count cap q (closeGap cap home n c i j) = count cap q c := by
  induction n generalizing c i j with
  | zero => rfl
  | succ n ih =>
    unfold closeGap
    split
    . rfl
    . next k v hj =>
      split
      . next hafter => exact ih (g.keep hj hafter)
      . next hafter =>
        rw [ih (g.pull hj hafter)]
        have hij : next cap j ≠ i := by
          intro heq
          rw [heq, g.free] at hj
          cases hj
        have hset := count_update (c := c) (q := q) g.gap_lt (c (next cap j))
        have hclear := count_update (c := Function.update c i (c (next cap j))) (q := q)
          (next_lt g.seen_lt) none
        rw [Function.update_of_ne hij] at hclear
        rw [g.free] at hset
        simp only [Option.any_none, Bool.toNat_false, Nat.add_zero] at hset hclear
        unfold move
        omega

theorem count_pos {q : κ × ν → Bool} {i : Nat} {p : κ × ν} (hi : i < cap) (hp : c i = some p)
    (hq : q p = true) : 0 < count cap q c := by
  have h := Finset.single_le_sum (f := fun i => ((c i).any q).toNat) (fun _ _ => Nat.zero_le _)
    (Finset.mem_range.mpr hi)
  simp only [hp, Option.any_some, hq, Bool.toNat_true] at h
  exact h

-- A table that is not full has a free cell, and one with a spare place two.
theorem exists_free (h : count cap (fun _ => true) c < cap) : ∃ e, e < cap ∧ c e = none := by
  by_contra hno
  rw [not_exists] at hno
  have hall : ∀ i ∈ Finset.range cap, ((c i).any fun _ => true).toNat = 1 := by
    intro i hi
    have hne : c i ≠ none := fun hnone => hno i ⟨Finset.mem_range.mp hi, hnone⟩
    obtain ⟨p, hp⟩ := Option.ne_none_iff_exists'.mp hne
    rw [hp]
    rfl
  unfold count at h
  rw [Finset.sum_congr rfl hall] at h
  simp at h

-- A list without repetition of what the cells hold counts them.
theorem Chained.count_eq [DecidableEq κ] [DecidableEq ν] (h : Chained cap home c) (q : κ × ν → Bool)
    {es : List (κ × ν)} (hes : es.Nodup) (hmem : ∀ p, p ∈ es ↔ ∃ i, c i = some p) :
    count cap q c = (es.filter q).length := by
  have hcard : count cap q c = ((Finset.range cap).filter fun i => (c i).any q = true).card := by
    rw [Finset.card_filter, count]
    apply Finset.sum_congr rfl
    intro i _
    cases (c i).any q <;> rfl
  have hinj : Set.InjOn c ((Finset.range cap).filter fun i => (c i).any q = true) := by
    intro i hi j _ heq
    have hi := (Finset.mem_filter.mp (Finset.mem_coe.mp hi)).2
    cases hc : c i with
    | none =>
      rw [hc] at hi
      exact absurd hi Bool.false_ne_true
    | some p => exact h.unique hc (heq ▸ hc)
  have himage : ((Finset.range cap).filter fun i => (c i).any q = true).image c =
      (es.filter q).toFinset.image some := by
    ext o
    simp only [Finset.mem_image, Finset.mem_filter, Finset.mem_range, List.mem_toFinset,
      List.mem_filter]
    constructor
    . rintro ⟨i, ⟨hi, hq⟩, rfl⟩
      cases hc : c i with
      | none =>
        rw [hc] at hq
        exact absurd hq Bool.false_ne_true
      | some p =>
        rw [hc] at hq
        exact ⟨p, ⟨(hmem p).mpr ⟨i, hc⟩, hq⟩, rfl⟩
    . rintro ⟨p, ⟨hp, hq⟩, rfl⟩
      obtain ⟨i, hi⟩ := (hmem p).mp hp
      exact ⟨i, ⟨h.lt hi, by rw [hi]; exact hq⟩, hi⟩
  rw [hcard, ← Finset.card_image_of_injOn hinj, himage,
    Finset.card_image_of_injective _ (Option.some_injective _),
    List.toFinset_card_of_nodup (hes.filter _)]

end

end KeyValueDb.Probing
