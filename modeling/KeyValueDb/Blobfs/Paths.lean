import Mathlib.Data.List.TakeWhile

/-!
Paths as blobfs reads them: component by component, where runs of slashes count as one. Seen as a whole
a path is the list of the names in it and whether a slash ends it.
-/

namespace KeyValueDb.Blobfs

def slash : UInt8 := 47
def dot : UInt8 := 46

-- The component at the next byte that is no slash, empty at the end, and what comes after it.
def component (p : List UInt8) : List UInt8 × List UInt8 :=
  let s := p.dropWhile (· == slash)
  (s.takeWhile (· != slash), s.dropWhile (· != slash))

/-! The names of a path -/

def pathNames (p : List UInt8) : List (List UInt8) := (p.splitOn slash).filter (· ≠ [])

def endsInSlash (p : List UInt8) : Bool := p.getLast? == some slash

theorem pathNames_slash (p : List UInt8) : pathNames (slash :: p) = pathNames p := by
  rw [pathNames, List.splitOn_cons_eq_if_modifyHead]
  simp [pathNames]

theorem pathNames_dropWhile (p : List UInt8) : pathNames (p.dropWhile (· == slash)) = pathNames p := by
  induction p with
  | nil => rfl
  | cons c p ih =>
    rw [List.dropWhile_cons]
    split
    . next h =>
      rw [eq_of_beq h, pathNames_slash]
      exact ih
    . rfl

theorem not_mem_component (p : List UInt8) : slash ∉ (component p).1 := by
  intro h
  simpa using List.mem_takeWhile_imp h

theorem pathNames_name {name : List UInt8} (h : slash ∉ name) (hne : name ≠ []) :
    pathNames name = [name] := by
  rw [pathNames, List.splitOn_eq_singleton h]
  simp [hne]

theorem pathNames_append {name : List UInt8} (h : slash ∉ name) (hne : name ≠ [])
    (after : List UInt8) : pathNames (name ++ slash :: after) = name :: pathNames after := by
  rw [pathNames, List.splitOn_append_cons_self, List.filter_append, ← pathNames, ← pathNames,
    pathNames_name h hne]
  rfl

theorem component_append (p : List UInt8) :
    (component p).1 ++ (component p).2 = p.dropWhile (· == slash) :=
  List.takeWhile_append_dropWhile

-- What comes after a component starts with a slash.
theorem component_after (p : List UInt8) :
    (component p).2 = [] ∨ ∃ rest, (component p).2 = slash :: rest := by
  cases h : (component p).2 with
  | nil => exact .inl rfl
  | cons c rest =>
    have hhead := List.head?_dropWhile_not (· != slash) (p.dropWhile (· == slash))
    rw [show (p.dropWhile (· == slash)).dropWhile (· != slash) = c :: rest from h] at hhead
    refine .inr ⟨rest, ?_⟩
    rw [show c = slash by simpa using hhead]

theorem component_nil {p : List UInt8} (h : (component p).1 = []) :
    p.dropWhile (· == slash) = [] := by
  cases hs : p.dropWhile (· == slash) with
  | nil => rfl
  | cons c rest =>
    -- its first byte is no slash, so it is one of the component
    have hhead := List.head?_dropWhile_not (· == slash) p
    rw [hs] at hhead
    have hc : (c != slash) = true := by simpa using hhead
    have htake : (component p).1 = c :: rest.takeWhile (· != slash) := by
      rw [component, hs]
      exact List.takeWhile_cons_of_pos (p := (· != slash)) hc
    rw [htake] at h
    cases h

theorem pathNames_end {p : List UInt8} (h : (component p).1 = []) : pathNames p = [] := by
  rw [← pathNames_dropWhile, component_nil h]
  rfl

theorem pathNames_component {p : List UInt8} (h : (component p).1 ≠ []) :
    pathNames p = (component p).1 :: pathNames (component p).2 := by
  rw [← pathNames_dropWhile, ← component_append]
  rcases component_after p with hafter | ⟨rest, hafter⟩
  . rw [hafter, List.append_nil, pathNames_name (not_mem_component p) h]
    rfl
  . rw [hafter, pathNames_append (not_mem_component p) h, pathNames_slash]

theorem component_shorter {p : List UInt8} (h : (component p).1 ≠ []) :
    (component p).2.length < p.length := by
  have hlen := congrArg List.length (component_append p)
  have hdrop := (List.dropWhile_sublist (l := p) (· == slash)).length_le
  rw [List.length_append] at hlen
  have := List.length_pos_iff.mpr h
  omega

-- A path ends in a slash if one comes after its last component.
theorem endsInSlash_component {p : List UInt8} (h : (component p).1 ≠ [])
    (hlast : (component (component p).2).1 = []) :
    endsInSlash p = ((component p).2.head? == some slash) := by
  obtain ⟨pre, hpre⟩ := List.dropWhile_suffix (l := p) (· == slash)
  have hp : endsInSlash p = ((pre ++ ((component p).1 ++ (component p).2)).getLast? == some slash) := by
    rw [component_append, hpre, endsInSlash]
  rcases component_after p with hafter | ⟨rest, hafter⟩
  . obtain ⟨c, hc⟩ := List.getLast?_isSome.mpr h |> Option.isSome_iff_exists.mp
    have hcs : c ≠ slash := fun he => not_mem_component p (he ▸ List.mem_of_getLast? hc)
    rw [hp, hafter, List.append_nil, List.getLast?_append, hc]
    simpa using hcs
  . -- nothing but slashes follows
    have hall : ∀ c ∈ (component p).2, c = slash := by
      have hnil := component_nil hlast
      rw [List.dropWhile_eq_nil_iff] at hnil
      exact fun c hc => eq_of_beq (hnil c hc)
    have hne : (component p).2 ≠ [] := by rw [hafter]; exact List.cons_ne_nil _ _
    obtain ⟨c, hc⟩ := List.getLast?_isSome.mpr hne |> Option.isSome_iff_exists.mp
    have hcs : c = slash := hall c (List.mem_of_getLast? hc)
    rw [hp, List.getLast?_append, List.getLast?_append, hc, hcs, hafter]
    rfl

theorem endsInSlash_after {p : List UInt8} (h : (component (component p).2).1 ≠ []) :
    endsInSlash p = endsInSlash (component p).2 := by
  obtain ⟨pre, hpre⟩ := List.dropWhile_suffix (l := p) (· == slash)
  have hp : endsInSlash p = ((pre ++ ((component p).1 ++ (component p).2)).getLast? == some slash) := by
    rw [component_append, hpre, endsInSlash]
  have hne : (component p).2 ≠ [] := by
    intro hnil
    rw [hnil] at h
    exact h rfl
  obtain ⟨c, hc⟩ := List.getLast?_isSome.mpr hne |> Option.isSome_iff_exists.mp
  rw [hp, List.getLast?_append, List.getLast?_append, hc, endsInSlash, hc]
  rfl

end KeyValueDb.Blobfs
