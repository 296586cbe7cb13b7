import KeyValueDb.Containers.MapPower
import KeyValueDb.Blobfs.Resolution
import KeyValueDb.Blobfs.Meanings

/-!
The files as they lie in the store: the maps and blobs that the entries lead to are a table of nodes, and
what it shows from the root directory is the file system. Walks through the store and the places that
paths mean agree.
-/

namespace KeyValueDb.Blobfs

open Containers Kvdb Rootreg

/-! The store as a table of nodes -/

def bodiesOf (es : Entries) : List UInt8 → Option Nat :=
  fun name => (es.lookup name).map fun val => (direntOf val).bodyId

def nodeOf : Item → Node Nat (List UInt8) (List UInt8)
  | .blob data => .file data
  | .map es => .dir (bodiesOf es)

def table (b : Items) : Hierarchy Nat (List UInt8) (List UInt8) := fun id => (b id).map nodeOf

-- What an entry leads to is of its type.
def Leads (b : Items) (de : Dirent) : Prop :=
  if de.type = typeDir then ∃ es, b de.bodyId = some (.map es) else ∃ data, b de.bodyId = some (.blob data)

-- An entry as blobfs writes it.
structure Written (b : Items) (val : List UInt8) (de : Dirent) : Prop where
  sound : de.Sound
  image : val = de.image
  leads : Leads b de

-- The file system `V` lies in the store, from the directory `root` on, and `meta` is not part of it.
structure Built (b : Items) (root metaId : Nat) (V : Files) : Prop where
  start : ∃ es, b root = some (.map es)
  entries : ∀ {p d es name val}, (table b).walk root p = some d → b d = some (.map es) →
    es.lookup name = some val → ∃ de, Written b val de
  unshared : (table b).Unshared root
  registry : ∀ p, (table b).walk root p ≠ some blobDbRootId
  info : ∀ p, (table b).walk root p ≠ some metaId
  view : (table b).view root = V

section

variable {b : Items} {root metaId d id : Nat} {V : Files} {p : List (List UInt8)} {es : Entries}
  {name : List UInt8}

theorem table_update (b : Items) (id : Nat) (item : Option Item) :
    table (Function.update b id item) = Function.update (table b) id (item.map nodeOf) := by
  funext i
  unfold table
  by_cases h : i = id
  . subst h
    rw [Function.update_self, Function.update_self]
  . rw [Function.update_of_ne h, Function.update_of_ne h]

theorem table_map (h : b d = some (.map es)) : table b d = some (.dir (bodiesOf es)) := by
  rw [table, h]
  rfl

theorem table_blob {data : List UInt8} (h : b id = some (.blob data)) : table b id = some (.file data) := by
  rw [table, h]
  rfl

theorem bodiesOf_insert {de : Dirent} (h : de.Sound) :
    bodiesOf (es.insert name de.image) = Function.update (bodiesOf es) name (some de.bodyId) := by
  funext n
  unfold bodiesOf
  by_cases hn : n = name
  . subst hn
    rw [AList.lookup_insert, Function.update_self, Option.map_some, direntOf_image h]
  . rw [AList.lookup_insert_ne hn, Function.update_of_ne hn]

theorem bodiesOf_erase : bodiesOf (es.erase name) = Function.update (bodiesOf es) name none := by
  funext n
  unfold bodiesOf
  by_cases hn : n = name
  . subst hn
    rw [AList.lookup_erase, Function.update_self, Option.map_none]
  . rw [AList.lookup_erase_ne hn, Function.update_of_ne hn]

theorem bodiesOf_empty : bodiesOf ∅ = fun _ => none := by
  funext n
  unfold bodiesOf
  rw [AList.lookup_empty, Option.map_none]

theorem final_item {item : Item} (hb : b id = some item) (hitem : ∀ es, item = .map es → es = ∅) :
    (table b).Final id := by
  cases item with
  | blob data => exact Hierarchy.final_file (table_blob hb)
  | map es =>
    apply Hierarchy.final_dir
    rw [table_map hb, hitem es rfl, bodiesOf_empty]

theorem Written.check {val : List UInt8} {de : Dirent} (h : Written b val de) : direntCheck val = .ok de := by
  rw [h.image]
  exact direntCheck_image h.sound

theorem Written.body {val : List UInt8} {de : Dirent} (h : Written b val de) : (direntOf val).bodyId = de.bodyId := by
  rw [h.image, direntOf_image h.sound]

theorem Leads.reached {de : Dirent} (h : Leads b de) : ∃ item, b de.bodyId = some item := by
  unfold Leads at h
  split at h
  . exact ⟨_, h.choose_spec⟩
  . exact ⟨_, h.choose_spec⟩

/-! What an edit of the store keeps -/

theorem Leads.outside {de : Dirent} (h : Leads b de) (hne : de.bodyId ≠ id) (item : Option Item) :
    Leads (Function.update b id item) de := by
  unfold Leads at h ⊢
  rwa [Function.update_of_ne hne]

theorem Leads.dir {de : Dirent} (h : Leads b de) (hd : b d = some (.map es)) (es' : Entries) :
    Leads (Function.update b d (some (.map es'))) de := by
  by_cases hne : de.bodyId = d
  . unfold Leads at h ⊢
    rw [hne] at h ⊢
    rw [hd] at h
    rw [Function.update_self]
    split
    . exact ⟨es', rfl⟩
    . next htype =>
      rw [if_neg htype] at h
      obtain ⟨data, hdata⟩ := h
      cases hdata
  . exact h.outside hne _

theorem Leads.file {de : Dirent} {old : List UInt8} (h : Leads b de) (hb : b id = some (.blob old))
    (data : List UInt8) : Leads (Function.update b id (some (.blob data))) de := by
  by_cases hne : de.bodyId = id
  . unfold Leads at h ⊢
    rw [hne] at h ⊢
    rw [hb] at h
    rw [Function.update_self]
    split
    . next htype =>
      rw [if_pos htype] at h
      obtain ⟨es, hes⟩ := h
      cases hes
    . exact ⟨data, rfl⟩
  . exact h.outside hne _

-- What an entry leads to is reached by its path.
theorem Written.walk {val : List UInt8} {de : Dirent} (hw : Written b val de)
    (hp : (table b).walk root p = some d) (hd : b d = some (.map es)) (hval : es.lookup name = some val) :
    (table b).walk root (p ++ [name]) = some de.bodyId := by
  rw [Hierarchy.walk_snoc hp, Hierarchy.entry_dir (table_map hd), bodiesOf, hval, Option.map_some, hw.body]

theorem Written.of_leads {b' : Items} {val : List UInt8} {de : Dirent} (h : Written b val de)
    (hb : Leads b de → Leads b' de) : Written b' val de := ⟨h.sound, h.image, hb h.leads⟩

namespace Built

variable (h : Built b root metaId V)

include h

-- An id that is not reached can be bound to anything.
theorem outside (hx : ∀ q, (table b).walk root q ≠ some id) (item : Option Item) :
    Built (Function.update b id item) root metaId V := by
  have hne : ∀ {q i}, (table b).walk root q = some i → i ≠ id := fun hq he => hx _ (he ▸ hq)
  have hstart : root ≠ id := hne (Hierarchy.walk_nil (table b) root)
  have hwalk := fun q => Hierarchy.walk_outside hx (item.map nodeOf) q
  constructor
  . rw [Function.update_of_ne hstart]
    exact h.start
  . intro p d es name val hp hd hval
    rw [table_update, hwalk] at hp
    rw [Function.update_of_ne (hne hp)] at hd
    obtain ⟨de, hw⟩ := h.entries hp hd hval
    exact ⟨de, hw.of_leads fun hl => hl.outside (hne (hw.walk hp hd hval)) item⟩
  . rw [table_update]
    exact h.unshared.outside hx _
  . intro q
    rw [table_update, hwalk]
    exact h.registry q
  . intro q
    rw [table_update, hwalk]
    exact h.info q
  . rw [table_update, Hierarchy.view_outside hx]
    exact h.view

-- A file can have any bytes.
theorem written {old : List UInt8} (hp : (table b).walk root p = some id) (hb : b id = some (.blob old))
    (data : List UInt8) :
    Built (Function.update b id (some (.blob data))) root metaId (Function.update V p (some (.file data))) := by
  have hnode : table b id = some (.file old) := table_blob hb
  have htable : table (Function.update b id (some (.blob data))) =
      Function.update (table b) id (some (.file data)) := table_update b id _
  have hwalk : ∀ q, Hierarchy.walk (Function.update (table b) id (some (.file data))) root q =
      (table b).walk root q :=
    fun q => Hierarchy.walk_written hnode root q
  have hdir : ∀ {i : Nat} {es : Entries}, Function.update b id (some (.blob data)) i = some (.map es) →
      b i = some (.map es) := by
    intro i es hi
    by_cases he : i = id
    . rw [he, Function.update_self] at hi
      cases hi
    . rwa [Function.update_of_ne he] at hi
  constructor
  . obtain ⟨es, hes⟩ := h.start
    have hne : root ≠ id := by
      rintro rfl
      rw [hb] at hes
      cases hes
    exact ⟨es, by rwa [Function.update_of_ne hne]⟩
  . intro q d es name val hq hd hval
    rw [htable, hwalk] at hq
    obtain ⟨de, hw⟩ := h.entries hq (hdir hd) hval
    exact ⟨de, hw.of_leads fun hl => hl.file hb data⟩
  . rw [htable]
    exact h.unshared.written hnode
  . intro q
    rw [htable, hwalk]
    exact h.registry q
  . intro q
    rw [htable, hwalk]
    exact h.info q
  . rw [htable, Hierarchy.view_written h.unshared hp hnode, h.view]

-- The entries of a directory that was there, where nothing is reached that was not, but for what has no
-- entries of its own.
theorem edited (hd : b d = some (.map es)) (es' : Entries)
    (hes : ∀ n val, es'.lookup n = some val → ∃ de, Written b val de)
    (hreach : ∀ q i, (table (Function.update b d (some (.map es')))).walk root q = some i →
      (∃ q', (table b).walk root q' = some i) ∨
        (i ≠ blobDbRootId ∧ i ≠ metaId) ∧ ∀ es, b i = some (.map es) → es = ∅)
    (hu : (table (Function.update b d (some (.map es')))).Unshared root) :
    Built (Function.update b d (some (.map es'))) root metaId
      ((table (Function.update b d (some (.map es')))).view root) := by
  constructor
  . by_cases he : root = d
    . exact ⟨es', by rw [he, Function.update_self]⟩
    . rw [Function.update_of_ne he]
      exact h.start
  . intro q i es₁ name val hq hi hval
    have hwritten : ∃ de, Written b val de := by
      by_cases he : i = d
      . rw [he, Function.update_self] at hi
        cases hi
        exact hes name val hval
      . rw [Function.update_of_ne he] at hi
        rcases hreach q i hq with ⟨q', hq'⟩ | ⟨-, hempty⟩
        . exact h.entries hq' hi hval
        . rw [hempty es₁ hi, AList.lookup_empty] at hval
          cases hval
    obtain ⟨de, hw⟩ := hwritten
    exact ⟨de, hw.of_leads fun hl => hl.dir hd es'⟩
  . exact hu
  . rintro q hq
    rcases hreach q _ hq with ⟨q', hq'⟩ | ⟨⟨hne, -⟩, -⟩
    . exact h.registry q' hq'
    . exact hne rfl
  . rintro q hq
    rcases hreach q _ hq with ⟨q', hq'⟩ | ⟨⟨-, hne⟩, -⟩
    . exact h.info q' hq'
    . exact hne rfl
  . rfl

variable (hp : (table b).walk root p = some d) (hd : b d = some (.map es))

include hp hd

-- An entry for something new, which has no entries of its own.
theorem bound (hfree : es.lookup name = none) {de : Dirent} {item : Item} (hsound : de.Sound)
    (hleads : Leads b de) (hx : ∀ q, (table b).walk root q ≠ some de.bodyId)
    (hregistry : de.bodyId ≠ blobDbRootId) (hinfo : de.bodyId ≠ metaId) (hb : b de.bodyId = some item)
    (hitem : ∀ es, item = .map es → es = ∅) :
    Built (Function.update b d (some (.map (es.insert name de.image)))) root metaId
      (Function.update V (p ++ [name]) (some (nodeOf item).obj)) := by
  have hnone : bodiesOf es name = none := by rw [bodiesOf, hfree, Option.map_none]
  have hnode : table b de.bodyId = some (nodeOf item) := by rw [table, hb, Option.map_some]
  have hfinal := final_item hb hitem
  have htable : table (Function.update b d (some (.map (es.insert name de.image)))) =
      Function.update (table b) d (some (.dir (Function.update (bodiesOf es) name (some de.bodyId)))) := by
    rw [table_update, Option.map_some, nodeOf, bodiesOf_insert hsound]
  have hbuilt := h.edited hd (es.insert name de.image) ?_ ?_ ?_
  . rwa [htable, Hierarchy.view_bound h.unshared hp (table_map hd) hnone hx hfinal hnode, h.view] at hbuilt
  . intro n val hval
    by_cases hn : n = name
    . rw [hn, AList.lookup_insert, Option.some.injEq] at hval
      exact ⟨de, hsound, hval.symm, hleads⟩
    . rw [AList.lookup_insert_ne hn] at hval
      exact h.entries hp hd hval
  . intro q i hq
    rw [htable, Hierarchy.walk_bound h.unshared hp (table_map hd) hnone hx hfinal] at hq
    split at hq
    . cases hq
      refine .inr ⟨⟨hregistry, hinfo⟩, ?_⟩
      intro es' hes'
      rw [hb] at hes'
      cases hes'
      exact hitem es' rfl
    . exact .inl ⟨q, hq⟩
  . rw [htable]
    exact h.unshared.bound hp (table_map hd) hnone hx hfinal

variable {val : List UInt8} {de : Dirent} (hval : es.lookup name = some val) (hw : Written b val de)

include hval hw

-- An entry that goes, with nothing below it.
theorem unbound {item : Item} (hb : b de.bodyId = some item) (hitem : ∀ es, item = .map es → es = ∅) :
    Built (Function.update b d (some (.map (es.erase name)))) root metaId
      (Function.update V (p ++ [name]) none) := by
  have hsome : bodiesOf es name = some de.bodyId := by rw [bodiesOf, hval, Option.map_some, hw.body]
  have hfinal := final_item hb hitem
  have htable : table (Function.update b d (some (.map (es.erase name)))) =
      Function.update (table b) d (some (.dir (Function.update (bodiesOf es) name none))) := by
    rw [table_update, Option.map_some, nodeOf, bodiesOf_erase]
  have hbuilt := h.edited hd (es.erase name) ?_ ?_ ?_
  . rwa [htable, Hierarchy.view_unbound h.unshared hp (table_map hd) hsome hfinal, h.view] at hbuilt
  . intro n v hv
    by_cases hn : n = name
    . rw [hn, AList.lookup_erase] at hv
      cases hv
    . rw [AList.lookup_erase_ne hn] at hv
      exact h.entries hp hd hv
  . intro q i hq
    rw [htable, Hierarchy.walk_unbound h.unshared hp (table_map hd) hsome hfinal] at hq
    split at hq
    . cases hq
    . exact .inl ⟨q, hq⟩
  . rw [htable]
    exact h.unshared.unbound hp (table_map hd) hsome hfinal

-- An entry under another name.
theorem moved {name' : List UInt8} (hne : name ≠ name') :
    Built (Function.update b d (some (.map ((es.insert name' de.image).erase name)))) root metaId
      (V.moved p name name') := by
  have hsome : bodiesOf es name = some de.bodyId := by rw [bodiesOf, hval, Option.map_some, hw.body]
  have htable : table (Function.update b d (some (.map ((es.insert name' de.image).erase name)))) =
      Function.update (table b) d (some (.dir
        (Function.update (Function.update (bodiesOf es) name' (some de.bodyId)) name none))) := by
    rw [table_update, Option.map_some, nodeOf, bodiesOf_erase, bodiesOf_insert hw.sound]
  have hbuilt := h.edited hd ((es.insert name' de.image).erase name) ?_ ?_ ?_
  . rwa [htable, Hierarchy.view_moved h.unshared hp (table_map hd) hne hsome, h.view] at hbuilt
  . intro n v hv
    by_cases hn : n = name
    . rw [hn, AList.lookup_erase] at hv
      cases hv
    rw [AList.lookup_erase_ne hn] at hv
    by_cases hn' : n = name'
    . rw [hn', AList.lookup_insert, Option.some.injEq] at hv
      exact ⟨de, hw.sound, hv.symm, hw.leads⟩
    . rw [AList.lookup_insert_ne hn'] at hv
      exact h.entries hp hd hv
  . intro q i hq
    rw [htable, Hierarchy.walk_moved h.unshared hp (table_map hd) hne hsome] at hq
    split at hq
    . exact .inl ⟨_, hq⟩
    . split at hq
      . cases hq
      . exact .inl ⟨q, hq⟩
  . rw [htable]
    exact h.unshared.moved hp (table_map hd) hne hsome

end Built

end

end KeyValueDb.Blobfs
