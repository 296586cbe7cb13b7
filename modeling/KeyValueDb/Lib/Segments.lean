import Mathlib.Order.Lattice
import Mathlib.Data.List.Basic
import Mathlib.Data.List.Infix

/-!
Linked structures whose links lead upwards: `node a` is what the cell at `a` holds and where it
points. A segment from `a` to `z` lists the cells between them, `z` not among them.
-/

namespace KeyValueDb

variable {α β : Type}

def Segment [LinearOrder α] (node : α → Option (β × α)) : α → List (α × β) → α → Prop
  | a, [], z => a = z
  | a, c :: cs, z => a = c.1 ∧ ∃ n, node a = some (c.2, n) ∧ a < n ∧ Segment node n cs z

-- Where a segment of these cells to `z` starts.
def startOf (cs : List (α × β)) (z : α) : α :=
  match cs with
  | [] => z
  | c :: _ => c.1

@[simp]
theorem startOf_nil (z : α) : startOf ([] : List (α × β)) z = z := rfl

@[simp]
theorem startOf_cons (c : α × β) (cs : List (α × β)) (z : α) : startOf (c :: cs) z = c.1 := rfl

theorem startOf_append (cs ds : List (α × β)) (z : α) :
    startOf (cs ++ ds) z = startOf cs (startOf ds z) := by
  cases cs <;> rfl

namespace Segment

variable [LinearOrder α] {node node' : α → Option (β × α)} {a m z n : α} {x : β} {cs ds : List (α × β)}

@[simp]
theorem nil_iff : Segment node a [] z ↔ a = z := Iff.rfl

theorem start (h : Segment node a cs z) : a = startOf cs z := by
  cases cs with
  | nil => exact h
  | cons c cs => exact h.1

theorem append_iff :
    Segment node a (cs ++ ds) z ↔ ∃ m, Segment node a cs m ∧ Segment node m ds z := by
  induction cs generalizing a with
  | nil => simp [Segment]
  | cons c cs ih =>
    simp only [List.cons_append, Segment, ih]
    constructor
    . rintro ⟨h1, n, h2, h3, m, h4, h5⟩
      exact ⟨m, ⟨h1, n, h2, h3, h4⟩, h5⟩
    . rintro ⟨m, ⟨h1, n, h2, h3, h4⟩, h5⟩
      exact ⟨h1, n, h2, h3, m, h4, h5⟩

theorem append (h : Segment node a cs m) (h' : Segment node m ds z) :
    Segment node a (cs ++ ds) z :=
  append_iff.mpr ⟨m, h, h'⟩

-- A cell at the end of a segment lengthens it.
theorem snoc (h : Segment node a cs z) (hz : node z = some (x, n)) (hn : z < n) :
    Segment node a (cs ++ [(z, x)]) n :=
  h.append ⟨rfl, n, hz, hn, rfl⟩

theorem le (h : Segment node a cs z) : a ≤ z := by
  induction cs generalizing a with
  | nil => exact le_of_eq h
  | cons c cs ih =>
    obtain ⟨_, n, _, hlt, hrest⟩ := h
    exact (lt_of_lt_of_le hlt (ih hrest)).le

theorem mem_lt (h : Segment node a cs z) {c : α × β} (hc : c ∈ cs) : c.1 < z := by
  induction cs generalizing a with
  | nil => cases hc
  | cons d cs ih =>
    obtain ⟨rfl, n, _, hlt, hrest⟩ := h
    cases hc with
    | head => exact lt_of_lt_of_le hlt hrest.le
    | tail _ hc => exact ih hrest hc

theorem le_mem (h : Segment node a cs z) {c : α × β} (hc : c ∈ cs) : a ≤ c.1 := by
  induction cs generalizing a with
  | nil => cases hc
  | cons d cs ih =>
    obtain ⟨rfl, n, _, hlt, hrest⟩ := h
    cases hc with
    | head => exact le_refl _
    | tail _ hc => exact (lt_of_lt_of_le hlt (ih hrest hc)).le

-- The cells come in ascending order.
theorem ascending (h : Segment node a cs z) : cs.Pairwise fun c d => c.1 < d.1 := by
  induction cs generalizing a with
  | nil => exact .nil
  | cons c cs ih =>
    obtain ⟨rfl, n, _, hlt, hrest⟩ := h
    exact .cons (fun d hd => lt_of_lt_of_le hlt (hrest.le_mem hd)) (ih hrest)

theorem node_mem (h : Segment node a cs z) {c : α × β} (hc : c ∈ cs) :
    ∃ n, node c.1 = some (c.2, n) := by
  induction cs generalizing a with
  | nil => cases hc
  | cons d cs ih =>
    obtain ⟨rfl, n, hnode, _, hrest⟩ := h
    cases hc with
    | head => exact ⟨n, hnode⟩
    | tail _ hc => exact ih hrest hc

-- A segment depends on its own cells only.
theorem congr (h : Segment node a cs z) (hsame : ∀ c ∈ cs, node' c.1 = node c.1) :
    Segment node' a cs z := by
  induction cs generalizing a with
  | nil => exact h
  | cons c cs ih =>
    obtain ⟨rfl, n, hnode, hlt, hrest⟩ := h
    have hc : node' c.1 = node c.1 := hsame c List.mem_cons_self
    exact ⟨rfl, n, hc.trans hnode, hlt, ih hrest fun d hd => hsame d (List.mem_cons_of_mem _ hd)⟩

-- Where the last cell of a segment points to is where the segment ends.
theorem node_last (h : Segment node a (cs ++ [(m, x)]) z) : node m = some (x, z) := by
  obtain ⟨m', _, rfl, n, hnode, _, hz⟩ := append_iff.mp h
  rw [hnode, nil_iff.mp hz]

theorem node_next {c d : α × β} (h : Segment node a (cs ++ c :: d :: ds) z) :
    node c.1 = some (c.2, d.1) := by
  obtain ⟨m, _, rfl, n, hnode, _, hrest⟩ := append_iff.mp h
  rw [hnode, hrest.1]

-- Two segments from one cell, the first one as long as it can be.
theorem prefix_of (h : Segment node a cs z) (hz : node z = none) (h' : Segment node a ds m) :
    ds <+: cs := by
  induction ds generalizing a cs with
  | nil => exact List.nil_prefix
  | cons d ds ih =>
    obtain ⟨rfl, n, hnode, _, hrest⟩ := h'
    cases cs with
    | nil =>
      rw [nil_iff.mp h, hz] at hnode
      cases hnode
    | cons c cs =>
      obtain ⟨hc, n', hnode', _, hrest'⟩ := h
      rw [hnode] at hnode'
      simp only [Option.some.injEq, Prod.mk.injEq] at hnode'
      obtain ⟨hx, rfl⟩ := hnode'
      have : c = d := Prod.ext hc.symm hx.symm
      rw [this]
      exact (List.prefix_cons_inj d).mpr (ih hrest' hrest)

-- Taking one cell away leaves the segment up to it.
theorem without {c : α × β} (h : Segment node a (cs ++ c :: ds) z)
    (hsame : ∀ i, i ≠ c.1 → node' i = node i) : Segment node' a cs c.1 := by
  obtain ⟨m, hcs, rfl, _⟩ := append_iff.mp h
  exact hcs.congr fun d hd => hsame d.1 (ne_of_lt (hcs.mem_lt hd))

end Segment

-- Links that lead upwards by at least one bound the number of cells.
theorem Segment.length_le {node : Nat → Option (β × Nat)} {a z : Nat} {cs : List (Nat × β)}
    (h : Segment node a cs z) : cs.length + a ≤ z := by
  induction cs generalizing a with
  | nil => simp [Segment.nil_iff.mp h]
  | cons c cs ih =>
    obtain ⟨rfl, n, _, hlt, hrest⟩ := h
    have := ih hrest
    simp only [List.length_cons]
    omega

end KeyValueDb
