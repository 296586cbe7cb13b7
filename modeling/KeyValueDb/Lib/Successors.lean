import Mathlib.Data.Set.Finite.List
import Mathlib.Data.Nat.Find

/-!
Walks through sets that change from one call to the next: each call asks for the first element after
the last one that was found, in an order that stays the same.
-/

namespace KeyValueDb

-- The least of the elements with `A`.
def LeastOf {α : Type} (cmp : α → α → Ordering) (A : α → Prop) (k : α) : Prop :=
  A k ∧ ∀ q, A q → cmp q k ≠ .lt

variable {α : Type} {cmp : α → α → Ordering}

-- The elements after a cursor, or all of them if there is none.
def Beyond (cmp : α → α → Ordering) (P : α → Prop) (cursor : Option α) (x : α) : Prop :=
  P x ∧ ∀ c ∈ cursor, cmp c x = .lt

-- The call number `i` meets the set `P i`, and its cursor is what was found before.
structure Walk (cmp : α → α → Ordering) (P : Nat → α → Prop) (cursor answer : Nat → Option α) :
    Prop where
  start : cursor 0 = none
  next : ∀ i a, answer i = some a → cursor (i + 1) = some a
  found : ∀ i a, answer i = some a → LeastOf cmp (Beyond cmp (P i) (cursor i)) a
  ended : ∀ i, answer i = none → ∀ x, ¬ Beyond cmp (P i) (cursor i) x

namespace Walk

variable {P : Nat → α → Prop} {cursor answer : Nat → Option α}

theorem step_lt (h : Walk cmp P cursor answer) {i : Nat} {a b : α} (ha : answer i = some a)
    (hb : answer (i + 1) = some b) : cmp a b = .lt :=
  (h.found (i + 1) b hb).1.2 a (h.next i a ha)

variable [Std.TransCmp cmp]

-- Every later answer is a greater one.
theorem ascending (h : Walk cmp P cursor answer) {i j : Nat} (hij : i < j)
    (hgo : ∀ k < j, answer k ≠ none) {a b : α} (ha : answer i = some a) (hb : answer j = some b) :
    cmp a b = .lt := by
  induction j, hij using Nat.le_induction generalizing b with
  | base => exact h.step_lt ha hb
  | succ j hij ih =>
    obtain ⟨c, hc⟩ := Option.ne_none_iff_exists'.mp (hgo j (Nat.lt_succ_self j))
    exact Std.TransCmp.lt_trans (ih (fun k hk => hgo k (by omega)) hc) (h.step_lt hc hb)

theorem irrefl (a : α) : cmp a a ≠ .lt := by
  have : cmp a a = .eq := Std.ReflCmp.compare_self
  rw [this]
  exact nofun

-- A walk through subsets of a finite set ends.
theorem ends (h : Walk cmp P cursor answer) {S : Set α} (hS : S.Finite)
    (hP : ∀ i x, P i x → x ∈ S) : ∃ n, answer n = none ∧ ∀ i < n, answer i ≠ none := by
  classical
  have hex : ∃ n, answer n = none := by
    by_contra hno
    have hgo : ∀ i, ∃ a, answer i = some a := fun i =>
      Option.ne_none_iff_exists'.mp fun hi => hno ⟨i, hi⟩
    choose f hf using hgo
    have hinj : Function.Injective f := by
      intro i j he
      rcases Nat.lt_trichotomy i j with hij | hij | hij
      . have hlt := h.ascending hij (fun k _ => by rw [hf k]; exact nofun) (hf i) (hf j)
        rw [he] at hlt
        exact absurd hlt (irrefl _)
      . exact hij
      . have hlt := h.ascending hij (fun k _ => by rw [hf k]; exact nofun) (hf j) (hf i)
        rw [he] at hlt
        exact absurd hlt (irrefl _)
    exact Set.infinite_of_injective_forall_mem hinj
      (fun i => hP i (f i) (h.found i (f i) (hf i)).1.1) hS
  refine ⟨Nat.find hex, Nat.find_spec hex, fun i hi => Nat.find_min hex hi⟩

-- What is there at every call is found.
theorem complete [Std.LawfulEqCmp cmp] (h : Walk cmp P cursor answer) {n : Nat}
    (hend : answer n = none) (hgo : ∀ i < n, answer i ≠ none) {k : α} (hk : ∀ i ≤ n, P i k) :
    ∃ i < n, answer i = some k := by
  by_contra hno
  -- otherwise it stays ahead of the cursor
  have hahead : ∀ i ≤ n, Beyond cmp (P i) (cursor i) k := by
    intro i hi
    induction i with
    | zero => exact ⟨hk 0 hi, fun c hc => by rw [h.start] at hc; cases hc⟩
    | succ i ih =>
      have hlast := ih (by omega)
      obtain ⟨a, ha⟩ := Option.ne_none_iff_exists'.mp (hgo i (by omega))
      refine ⟨hk (i + 1) hi, fun c hc => ?_⟩
      rw [h.next i a ha] at hc
      obtain rfl : a = c := Option.some.inj hc
      have hleast := (h.found i a ha).2 k hlast
      cases hcmp : cmp a k with
      | lt => rfl
      | eq =>
        obtain rfl : a = k := Std.LawfulEqCmp.eq_of_compare hcmp
        exact absurd ⟨i, by omega, ha⟩ hno
      | gt => exact absurd (Std.OrientedCmp.lt_of_gt hcmp) hleast
  exact h.ended n hend k (hahead n le_rfl)

end Walk

end KeyValueDb
