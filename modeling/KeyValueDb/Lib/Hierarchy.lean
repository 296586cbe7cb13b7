import Mathlib.Data.List.Basic
import Mathlib.Data.List.Infix
import Mathlib.Logic.Function.Basic

/-!
Hierarchies of named nodes: a table has each node under an id, and an entry of a directory leads on by an
id. Seen from a root the table is a view, a function from paths to what they lead to. As long as every id
is reached by one path at most, an edit of one directory is an edit of the view at the paths through the
entries that changed, and nowhere else.
-/

namespace KeyValueDb

-- A node of a table: the entries of a directory, or a file.
inductive Node (ι ν κ : Type) where
  | dir (entries : ν → Option ι)
  | file (data : κ)

-- What a path leads to.
inductive Obj (κ : Type) where
  | dir
  | file (data : κ)
  deriving Repr, DecidableEq

def Node.obj {ι ν κ : Type} : Node ι ν κ → Obj κ
  | .dir _ => .dir
  | .file data => .file data

abbrev Hierarchy (ι ν κ : Type) := ι → Option (Node ι ν κ)

-- What there is, by its path from the root.
abbrev View (ν κ : Type) := List ν → Option (Obj κ)

-- The view after the entry `name` of the directory at `p` is given the name `name'`.
def View.moved {ν κ : Type} [DecidableEq ν] (F : View ν κ) (p : List ν) (name name' : ν) : View ν κ :=
  fun q =>
    if p ++ [name'] <+: q then F (p ++ name :: q.drop (p.length + 1))
    else if p ++ [name] <+: q then none else F q

namespace Hierarchy

variable {ι ν κ : Type}

def entry (g : Hierarchy ι ν κ) (d : ι) (name : ν) : Option ι :=
  match g d with
  | some (.dir entries) => entries name
  | _ => none

def walk (g : Hierarchy ι ν κ) : ι → List ν → Option ι
  | d, [] => some d
  | d, name :: names => (g.entry d name).bind fun d' => walk g d' names

def view (g : Hierarchy ι ν κ) (root : ι) : View ν κ :=
  fun path => (g.walk root path).bind fun id => (g id).map Node.obj

-- Every id is reached by one path at most.
def Unshared (g : Hierarchy ι ν κ) (root : ι) : Prop :=
  ∀ p q id, g.walk root p = some id → g.walk root q = some id → p = q

-- A node that leads nowhere.
def Final (g : Hierarchy ι ν κ) (x : ι) : Prop := ∀ name, g.entry x name = none

variable {g g' : Hierarchy ι ν κ} {root d x : ι} {p q : List ν} {name : ν} {e e' : ν → Option ι}

theorem entry_dir (h : g d = some (.dir e)) (name : ν) : g.entry d name = e name := by
  rw [entry, h]

theorem entry_some (h : g.entry d name = some x) : ∃ e, g d = some (.dir e) ∧ e name = some x := by
  unfold entry at h
  split at h
  . next e hd => exact ⟨e, hd, h⟩
  . cases h

theorem entry_congr (h : g' d = g d) (name : ν) : g'.entry d name = g.entry d name := by
  rw [entry, entry, h]

theorem walk_nil (g : Hierarchy ι ν κ) (d : ι) : g.walk d [] = some d := rfl

theorem walk_append (g : Hierarchy ι ν κ) (d : ι) (p q : List ν) :
    g.walk d (p ++ q) = (g.walk d p).bind fun d' => g.walk d' q := by
  induction p generalizing d with
  | nil => rfl
  | cons name p ih =>
    rw [List.cons_append, walk, walk]
    cases g.entry d name with
    | none => rfl
    | some d' => exact ih d'

theorem walk_snoc (hd : g.walk root p = some d) (name : ν) :
    g.walk root (p ++ [name]) = g.entry d name := by
  rw [walk_append, hd]
  show (g.entry d name).bind _ = _
  cases g.entry d name <;> rfl

-- A walk is the same in two tables that agree on the steps it takes.
theorem walk_congr (h : ∀ r name s id, q = r ++ name :: s → g.walk d r = some id →
    g'.entry id name = g.entry id name) : g'.walk d q = g.walk d q := by
  induction q generalizing d with
  | nil => rfl
  | cons name q ih =>
    rw [walk, walk, h [] name q d rfl rfl]
    cases hd : g.entry d name with
    | none => rfl
    | some d' =>
      apply ih
      intro r name' s id hq hr
      apply h (name :: r) name' s id
      . rw [hq, List.cons_append]
      . rw [walk, hd]
        exact hr

theorem Final.walk (h : g.Final x) : ∀ q, g.walk x q = if q = [] then some x else none
  | [] => rfl
  | name :: q => by
    rw [Hierarchy.walk, h name]
    rfl

theorem final_file {data : κ} (h : g x = some (.file data)) : g.Final x := by
  intro name
  rw [entry, h]

theorem final_dir (h : g x = some (.dir fun _ => none)) : g.Final x := entry_dir h

theorem view_some {o : Obj κ} (h : g.view root p = some o) :
    ∃ id n, g.walk root p = some id ∧ g id = some n ∧ n.obj = o := by
  obtain ⟨id, hid, hn⟩ := Option.bind_eq_some_iff.mp h
  obtain ⟨n, hn, ho⟩ := Option.map_eq_some_iff.mp hn
  exact ⟨id, n, hid, hn, ho⟩

theorem view_eq {n : Node ι ν κ} (hid : g.walk root p = some x) (hn : g x = some n) :
    g.view root p = some n.obj := by
  rw [view, hid, Option.bind_some, hn]
  rfl

variable [DecidableEq ι]

/-! Edits of what is not reached -/

theorem walk_outside (hx : ∀ p, g.walk root p ≠ some x) (n : Option (Node ι ν κ)) (q : List ν) :
    walk (Function.update g x n) root q = g.walk root q := by
  apply walk_congr
  intro r name s id _ hr
  apply entry_congr
  apply Function.update_of_ne
  rintro rfl
  exact hx r hr

theorem view_outside (hx : ∀ p, g.walk root p ≠ some x) (n : Option (Node ι ν κ)) :
    view (Function.update g x n) root = g.view root := by
  funext q
  rw [view, view, walk_outside hx]
  cases hq : g.walk root q with
  | none => rfl
  | some id =>
    have hne : id ≠ x := fun he => hx q (he ▸ hq)
    rw [Option.bind_some, Option.bind_some, Function.update_of_ne hne]

theorem Unshared.outside (hu : g.Unshared root) (hx : ∀ p, g.walk root p ≠ some x)
    (n : Option (Node ι ν κ)) : Unshared (Function.update g x n) root := by
  intro p q id hp hq
  rw [walk_outside hx] at hp hq
  exact hu p q id hp hq

/-! Edits of a file -/

theorem walk_written {old data : κ} (h : g x = some (.file old)) (d : ι) (q : List ν) :
    walk (Function.update g x (some (.file data))) d q = g.walk d q := by
  apply walk_congr
  intro r name s id _ _
  by_cases he : id = x
  . subst he
    rw [entry, entry, Function.update_self, h]
  . exact entry_congr (Function.update_of_ne he _ _) name

theorem Unshared.written {old data : κ} (hu : g.Unshared root) (h : g x = some (.file old)) :
    Unshared (Function.update g x (some (.file data))) root := by
  intro p q id hp hq
  rw [walk_written h] at hp hq
  exact hu p q id hp hq

theorem view_written [DecidableEq ν] {old data : κ} (hu : g.Unshared root) (hp : g.walk root p = some x)
    (h : g x = some (.file old)) :
    view (Function.update g x (some (.file data))) root =
      Function.update (g.view root) p (some (.file data)) := by
  funext q
  by_cases hq : q = p
  . subst hq
    rw [Function.update_self]
    exact view_eq ((walk_written h root q).trans hp) (Function.update_self x _ g)
  . rw [Function.update_of_ne hq, view, view, walk_written h]
    cases hw : g.walk root q with
    | none => rfl
    | some id =>
      have hne : id ≠ x := by
        rintro rfl
        exact hq (hu q p id hw hp)
      rw [Option.bind_some, Option.bind_some, Function.update_of_ne hne]

/-! Edits of a directory -/

section

variable (hu : g.Unshared root) (hp : g.walk root p = some d) (hd : g d = some (.dir e))

include hu hp hd

-- Paths that take none of the entries that changed are what they were.
theorem walk_beside (hq : ∀ name s, q = p ++ name :: s → e' name = e name) :
    walk (Function.update g d (some (.dir e'))) root q = g.walk root q := by
  apply walk_congr
  intro r name s id hr hid
  by_cases he : id = d
  . subst he
    rw [hu p r id hp hid] at hq
    rw [entry_dir (Function.update_self _ _ _), entry_dir hd, hq name s hr]
  . exact entry_congr (Function.update_of_ne he _ _) name

theorem walk_dir : walk (Function.update g d (some (.dir e'))) root p = some d := by
  refine (walk_beside hu hp hd ?_).trans hp
  intro name s h
  have hlen := congrArg List.length h
  rw [List.length_append, List.length_cons] at hlen
  omega

theorem walk_through (name : ν) (s : List ν) :
    walk (Function.update g d (some (.dir e'))) root (p ++ name :: s) =
      (e' name).bind fun x => walk (Function.update g d (some (.dir e'))) x s := by
  rw [walk_append, walk_dir hu hp hd, Option.bind_some, walk, entry_dir (Function.update_self _ _ _)]

-- What an entry of the directory leads to does not lead back to it.
theorem walk_under (hname : e name = some x) (s : List ν) :
    walk (Function.update g d (some (.dir e'))) x s = g.walk x s := by
  have hx : g.walk root (p ++ [name]) = some x := by rw [walk_snoc hp, entry_dir hd, hname]
  apply walk_congr
  intro r name' s' id _ hid
  apply entry_congr
  apply Function.update_of_ne
  rintro rfl
  have hback : g.walk root (p ++ [name] ++ r) = some id := by rw [walk_append, hx, Option.bind_some, hid]
  have hlen := congrArg List.length (hu _ _ _ hp hback)
  simp only [List.length_append, List.length_cons, List.length_nil] at hlen
  omega

omit hu hp in
theorem obj_dir (id : ι) : (Function.update g d (some (.dir e')) id).map Node.obj = (g id).map Node.obj := by
  by_cases h : id = d
  . subst h
    rw [Function.update_self, hd]
    rfl
  . rw [Function.update_of_ne h]

omit hu hp in
theorem view_dir (path : List ν) : view (Function.update g d (some (.dir e'))) root path =
    (walk (Function.update g d (some (.dir e'))) root path).bind fun id => (g id).map Node.obj := by
  unfold view
  congr 1
  funext id
  exact obj_dir hd id

omit [DecidableEq ι] hu hp hd in
theorem append_cons_iff {s : List ν} : p ++ name :: s = p ++ [name] ↔ s = [] := by
  rw [List.append_right_inj, List.cons.injEq]
  exact and_iff_right rfl

variable [DecidableEq ν]

-- An entry for something that nothing led to.
section Bound

variable {n : Node ι ν κ} (hfree : e name = none) (hx : ∀ r, g.walk root r ≠ some x) (hfinal : g.Final x)

include hfree hx hfinal

theorem walk_bound (r : List ν) :
    walk (Function.update g d (some (.dir (Function.update e name (some x))))) root r =
      if r = p ++ [name] then some x else g.walk root r := by
  have hne : x ≠ d := fun h => hx p (h ▸ hp)
  by_cases h : ∃ s, r = p ++ name :: s
  . obtain ⟨s, rfl⟩ := h
    have hfinal' : Final (Function.update g d (some (.dir (Function.update e name (some x))))) x :=
      fun name' => (entry_congr (Function.update_of_ne hne _ _) name').trans (hfinal name')
    have hnone : g.walk root (p ++ name :: s) = none := by
      rw [walk_append, hp, Option.bind_some, walk, entry_dir hd, hfree]
      rfl
    rw [walk_through hu hp hd, Function.update_self, Option.bind_some, hfinal'.walk, hnone]
    simp only [append_cons_iff]
  . rw [if_neg fun hr => h ⟨[], hr⟩]
    apply walk_beside hu hp hd
    intro name' s hr
    apply Function.update_of_ne
    rintro rfl
    exact h ⟨s, hr⟩

theorem Unshared.bound :
    Unshared (Function.update g d (some (.dir (Function.update e name (some x))))) root := by
  intro r s id hr hs
  rw [walk_bound hu hp hd hfree hx hfinal] at hr hs
  split at hr <;> split at hs
  . next h h' => exact h.trans h'.symm
  . cases hr
    exact absurd hs (hx s)
  . cases hs
    exact absurd hr (hx r)
  . exact hu r s id hr hs

theorem view_bound (hn : g x = some n) :
    view (Function.update g d (some (.dir (Function.update e name (some x))))) root =
      Function.update (g.view root) (p ++ [name]) (some n.obj) := by
  funext r
  rw [view_dir hd, walk_bound hu hp hd hfree hx hfinal]
  split
  . next h =>
    rw [h, Function.update_self, Option.bind_some, hn]
    rfl
  . next h =>
    rw [Function.update_of_ne h]
    rfl

end Bound

-- An entry that goes, for something that leads nowhere.
section Unbound

variable (hx : e name = some x) (hfinal : g.Final x)

include hx hfinal

theorem walk_unbound (r : List ν) :
    walk (Function.update g d (some (.dir (Function.update e name none)))) root r =
      if r = p ++ [name] then none else g.walk root r := by
  by_cases h : ∃ s, r = p ++ name :: s
  . obtain ⟨s, rfl⟩ := h
    have hold : g.walk root (p ++ name :: s) = if s = [] then some x else none := by
      rw [walk_append, hp, Option.bind_some, walk, entry_dir hd, hx, Option.bind_some, hfinal.walk]
    rw [walk_through hu hp hd, Function.update_self, Option.bind_none, hold]
    simp only [append_cons_iff]
    split <;> rfl
  . rw [if_neg fun hr => h ⟨[], hr⟩]
    apply walk_beside hu hp hd
    intro name' s hr
    apply Function.update_of_ne
    rintro rfl
    exact h ⟨s, hr⟩

theorem Unshared.unbound : Unshared (Function.update g d (some (.dir (Function.update e name none)))) root := by
  intro r s id hr hs
  rw [walk_unbound hu hp hd hx hfinal] at hr hs
  split at hr <;> split at hs
  . cases hr
  . cases hr
  . cases hs
  . exact hu r s id hr hs

theorem view_unbound :
    view (Function.update g d (some (.dir (Function.update e name none)))) root =
      Function.update (g.view root) (p ++ [name]) none := by
  funext r
  rw [view_dir hd, walk_unbound hu hp hd hx hfinal]
  split
  . next h =>
    rw [h, Function.update_self]
    rfl
  . next h =>
    rw [Function.update_of_ne h]
    rfl

end Unbound

-- An entry that is given another name.
section Moved

variable {name' : ν} (hne : name ≠ name') (hx : e name = some x)

include hne hx

theorem walk_moved (r : List ν) :
    walk (Function.update g d (some (.dir (Function.update (Function.update e name' (some x)) name none))))
        root r =
      if p ++ [name'] <+: r then g.walk root (p ++ name :: r.drop (p.length + 1))
      else if p ++ [name] <+: r then none else g.walk root r := by
  by_cases h' : p ++ [name'] <+: r
  . obtain ⟨s, rfl⟩ := h'
    have hdrop : (p ++ [name'] ++ s).drop (p.length + 1) = s := by simp
    rw [if_pos (List.prefix_append _ _), hdrop, List.append_assoc, List.singleton_append,
      walk_through hu hp hd, Function.update_of_ne hne.symm, Function.update_self, Option.bind_some,
      walk_under hu hp hd hx, walk_append, hp, Option.bind_some, walk, entry_dir hd, hx, Option.bind_some]
  rw [if_neg h']
  by_cases h : p ++ [name] <+: r
  . obtain ⟨s, rfl⟩ := h
    rw [if_pos (List.prefix_append _ _), List.append_assoc, List.singleton_append, walk_through hu hp hd,
      Function.update_self, Option.bind_none]
  . rw [if_neg h]
    apply walk_beside hu hp hd
    intro n s hr
    have hin : p ++ [n] <+: r := by
      rw [hr]
      exact ⟨s, by rw [List.append_assoc, List.singleton_append]⟩
    rw [Function.update_of_ne fun (he : n = name) => h (he ▸ hin),
      Function.update_of_ne fun (he : n = name') => h' (he ▸ hin)]

theorem Unshared.moved : Unshared
    (Function.update g d (some (.dir (Function.update (Function.update e name' (some x)) name none)))) root := by
  have hold : ∀ r s : List ν, p ++ name :: r.drop (p.length + 1) = s → p ++ [name] <+: s := by
    rintro r s rfl
    exact ⟨_, by rw [List.append_assoc, List.singleton_append]⟩
  intro r s id hr hs
  rw [walk_moved hu hp hd hne hx] at hr hs
  split at hr <;> split at hs
  . next h h' =>
    -- both were below the old name
    obtain ⟨r', rfl⟩ := h
    obtain ⟨s', rfl⟩ := h'
    have heq := hu _ _ _ hr hs
    have hdrop (t : List ν) : (p ++ [name'] ++ t).drop (p.length + 1) = t := by simp
    rw [hdrop, hdrop, List.append_right_inj, List.cons.injEq] at heq
    rw [heq.2]
  . split at hs
    . cases hs
    . next h => exact absurd (hold _ _ (hu _ _ _ hr hs)) h
  . split at hr
    . cases hr
    . next h => exact absurd (hold _ _ (hu _ _ _ hs hr)) h
  . split at hr
    . cases hr
    . split at hs
      . cases hs
      . exact hu r s id hr hs

theorem view_moved :
    view (Function.update g d (some (.dir (Function.update (Function.update e name' (some x)) name none))))
        root = (g.view root).moved p name name' := by
  funext r
  rw [view_dir hd, walk_moved hu hp hd hne hx, View.moved]
  split
  . rfl
  . split <;> rfl

end Moved

end

end Hierarchy

end KeyValueDb
