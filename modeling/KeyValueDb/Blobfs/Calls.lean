import KeyValueDb.Blobfs.Places

/-!
What the calls of a session make of the store, where power may be lost at every write: each answers what
it means of the file system that lies in the store, and leaves the one it makes of it. A call that power is
lost in leaves the file system as it was or as it would be, or a rename under way.
-/

namespace KeyValueDb.Blobfs

open Containers Kvdb Rootreg

-- The paths that go through none of the names `N` resolve as they did.
def Within (N : List (List (List UInt8))) (root : Nat) (b b' : Items) : Prop :=
  ∀ q, (∀ p ∈ N, ¬ p <+: q) → (table b').walk root q = (table b).walk root q

-- The registry leads to the meta.
def Registered (cfg : RegCfg) (b : Items) (metaId : Nat) : Prop :=
  ∃ data es idx, b blobDbRootId = some (.blob data) ∧ rrCheck cfg data = .ok es ∧
    rrFind es blobfsKey = some idx ∧ (es.getD idx ⟨0, 0⟩).rootId.toNat = metaId

-- What is bound has an id that was handed out.
structure Tidy (b : Items) (top : Nat) : Prop where
  above : ∀ id, top < id → b id = none
  zero : b 0 = none
  top_lt : top < 2 ^ 64

structure Anchored (cfg : RegCfg) (b : Items) (top metaId : Nat) : Prop extends Tidy b top where
  registered : Registered cfg b metaId
  apart : metaId ≠ blobDbRootId

def MetaIs (fs : FsCfg) (b : Items) (metaId : Nat) (m : Meta) : Prop :=
  ∃ data v1, b metaId = some (.blob data) ∧ metaOf fs data = .ok (m, v1)

-- The file system `V` lies in the store, and no rename is under way.
structure Lies (cfg : RegCfg) (fs : FsCfg) (b : Items) (top metaId root : Nat) (V : Files) : Prop where
  anchored : Anchored cfg b top metaId
  info : ∃ m, MetaIs fs b metaId m ∧ m.renameInFlight = 0 ∧ m.dirRoot = root
  built : Built b root metaId V

section

variable {cfg : RegCfg} {fs : FsCfg} {H : Hypothesis (WithRam MapStore Session)} {α : Type} {b b' b'' : Items}
  {top top' k id metaId root : Nat} {st : Session} {V V' : Files} {p : List (List UInt8)}
  {N : List (List (List UInt8))} {r : Except Errno (Files × FsReply)}

theorem Within.refl (N : List (List (List UInt8))) (root : Nat) (b : Items) : Within N root b b :=
  fun _ _ => rfl

theorem Within.trans (h : Within N root b b') (h' : Within N root b' b'') : Within N root b b'' :=
  fun q hq => (h' q hq).trans (h q hq)

theorem Within.outside (hx : ∀ q, (table b).walk root q ≠ some id) (item : Option Item) :
    Within N root b (Function.update b id item) := by
  intro q _
  rw [table_update, Hierarchy.walk_outside hx]

/-! What a write keeps -/

theorem Tidy.bound_le (h : Tidy b top) {item : Item} (hb : b id = some item) : id ≤ top := by
  by_contra hlt
  rw [h.above id (by omega)] at hb
  cases hb

theorem Tidy.bound_pos (h : Tidy b top) {item : Item} (hb : b id = some item) : id ≠ 0 := by
  rintro rfl
  rw [h.zero] at hb
  cases hb

theorem Tidy.edited (h : Tidy b top) (hle : id ≤ top) (h0 : id ≠ 0) (item : Option Item) :
    Tidy (Function.update b id item) top where
  above := by
    intro i hi
    rw [Function.update_of_ne (by omega)]
    exact h.above i hi
  zero := by rw [Function.update_of_ne h0.symm, h.zero]
  top_lt := h.top_lt

theorem Tidy.raise (h : Tidy b top) (hle : top ≤ top') (hlt : top' < 2 ^ 64) : Tidy b top' :=
  ⟨fun id hid => h.above id (by omega), h.zero, hlt⟩

theorem Anchored.edited (h : Anchored cfg b top metaId) (hle : id ≤ top) (h0 : id ≠ 0) (hne : id ≠ blobDbRootId)
    (item : Option Item) : Anchored cfg (Function.update b id item) top metaId where
  toTidy := h.toTidy.edited hle h0 item
  registered := by
    obtain ⟨data, es, idx, hdata, hcheck⟩ := h.registered
    exact ⟨data, es, idx, by rwa [Function.update_of_ne hne.symm], hcheck⟩
  apart := h.apart

theorem Anchored.raise (h : Anchored cfg b top metaId) (hle : top ≤ top') (hlt : top' < 2 ^ 64) :
    Anchored cfg b top' metaId := ⟨h.toTidy.raise hle hlt, h.registered, h.apart⟩

theorem Lies.raise (h : Lies cfg fs b top metaId root V) (hle : top ≤ top') (hlt : top' < 2 ^ 64) :
    Lies cfg fs b top' metaId root V := ⟨h.anchored.raise hle hlt, h.info, h.built⟩

-- An edit apart from the registry and the meta.
theorem Lies.edited (h : Lies cfg fs b top metaId root V) (hle : id ≤ top) (h0 : id ≠ 0)
    (hne : id ≠ blobDbRootId) (hmeta : id ≠ metaId) {item : Option Item}
    (hb : Built (Function.update b id item) root metaId V') :
    Lies cfg fs (Function.update b id item) top metaId root V' where
  anchored := h.anchored.edited hle h0 hne item
  info := by
    obtain ⟨m, ⟨data, v1, hdata, hof⟩, hm⟩ := h.info
    exact ⟨m, ⟨data, v1, by rwa [Function.update_of_ne hmeta.symm], hof⟩, hm⟩
  built := hb

-- An edit of something that a path leads to.
theorem Lies.edited_at (h : Lies cfg fs b top metaId root V) {item : Item} (hp : (table b).walk root p = some id)
    (hb : b id = some item) {item' : Option Item} (hb' : Built (Function.update b id item') root metaId V') :
    Lies cfg fs (Function.update b id item') top metaId root V' :=
  h.edited (h.anchored.bound_le hb) (h.anchored.bound_pos hb) (fun he => h.built.registry p (he ▸ hp))
    (fun he => h.built.info p (he ▸ hp)) hb'

theorem Built.reached (h : Built b root metaId V) (hp : (table b).walk root p = some id) :
    ∃ item, b id = some item := by
  rcases List.eq_nil_or_concat p with rfl | ⟨q, name, rfl⟩
  . cases hp
    obtain ⟨es, hes⟩ := h.start
    exact ⟨_, hes⟩
  . rw [List.concat_eq_append] at hp
    obtain ⟨d, hq, -⟩ := Option.bind_eq_some_iff.mp ((Hierarchy.walk_append _ _ _ _).symm.trans hp)
    rw [Hierarchy.walk_snoc hq] at hp
    obtain ⟨e, hnode, hname⟩ := Hierarchy.entry_some hp
    rw [table] at hnode
    cases hb : b d with
    | none =>
      rw [hb] at hnode
      cases hnode
    | some item =>
      rw [hb, Option.map_some, Option.some.injEq] at hnode
      cases item with
      | blob data => cases hnode
      | map es =>
        cases hnode
        obtain ⟨val, hval, hbody⟩ := Option.map_eq_some_iff.mp hname
        obtain ⟨de, hw⟩ := h.entries hq hb hval
        rw [hw.body] at hbody
        subst hbody
        exact hw.leads.reached

-- An id that was not handed out is not reached.
theorem Lies.fresh (h : Lies cfg fs b top metaId root V) (hid : top < id) (q : List (List UInt8)) :
    (table b).walk root q ≠ some id := by
  intro hq
  obtain ⟨item, hitem⟩ := h.built.reached hq
  exact absurd (h.anchored.bound_le hitem) (by omega)

theorem Lies.meta_le (h : Lies cfg fs b top metaId root V) : metaId ≤ top := by
  obtain ⟨m, ⟨data, v1, hdata, -⟩, -⟩ := h.info
  exact h.anchored.bound_le hdata

theorem Anchored.registry_le (h : Anchored cfg b top metaId) : blobDbRootId ≤ top := by
  obtain ⟨data, es, idx, hdata, -⟩ := h.registered
  exact h.bound_le hdata

-- What is bound to something new.
theorem Lies.outside (h : Lies cfg fs b top metaId root V) (hid : top < id) (hlt : id < 2 ^ 64)
    (item : Option Item) : Lies cfg fs (Function.update b id item) id metaId root V := by
  have hmeta := h.meta_le
  have hreg := h.anchored.registry_le
  apply (h.raise (by omega) hlt).edited le_rfl (by omega) (by omega) (by omega)
  exact h.built.outside (h.fresh hid) item

/-! Answers -/

-- The session `st` has `V'` now, reached from `b` by way of the names `N`.
def Rests (cfg : RegCfg) (fs : FsCfg) (st : Session) (b : Items) (N : List (List (List UInt8))) (V' : Files)
    (s : WithRam MapStore Session) : Prop :=
  ∃ b' top v1, Lies cfg fs b' top st.metaId st.dirRoot V' ∧ Within N st.dirRoot b b' ∧
    On b' top 0 True { st with metaV1 := v1 } s

-- What a call that means `r` of the file system `V` answers and leaves. It answers -EIO where the ids have
-- run out.
def answering (cfg : RegCfg) (fs : FsCfg) (st : Session) (V : Files) (b : Items) (N : List (List (List UInt8)))
    (r : Except Errno (Files × FsReply)) :
    Post (WithRam MapStore Session) Errno FsReply where
  ok rep s := ∃ V', r = .ok (V', rep) ∧ Rests cfg fs st b N V' s
  err e s := (r = .error e ∨ e = Errno.EIO) ∧ Rests cfg fs st b N V s
  cut s := ∃ V', (V' = V ∨ ∃ rep, r = .ok (V', rep)) ∧
    Lies cfg fs s.base.items s.base.top st.metaId st.dirRoot V' ∧ Within N st.dirRoot b s.base.items

section

variable {v1 : Bool}

theorem answering_err (h : Lies cfg fs b' top st.metaId st.dirRoot V) (hw : Within N st.dirRoot b b') {e : Errno}
    (hr : r = .error e ∨ e = Errno.EIO) :
    ∀ s, On b' top 0 True { st with metaV1 := v1 } s → (answering cfg fs st V b N r).err e s :=
  fun _ hs => ⟨hr, b', top, v1, h, hw, hs⟩

theorem answering_ok (h : Lies cfg fs b' top st.metaId st.dirRoot V') (hw : Within N st.dirRoot b b')
    {rep : FsReply} (hr : r = .ok (V', rep)) :
    ∀ s, On b' top 0 True { st with metaV1 := v1 } s → (answering cfg fs st V b N r).ok rep s :=
  fun _ hs => ⟨V', hr, b', top, v1, h, hw, hs⟩

theorem answering_cut {s : WithRam MapStore Session} (hV : V' = V ∨ ∃ rep, r = .ok (V', rep))
    (h : Lies cfg fs b' top st.metaId st.dirRoot V') (hw : Within N st.dirRoot b b')
    (hb : s.base.items = b') (ht : s.base.top = top) : (answering cfg fs st V b N r).cut s := by
  subst hb ht
  exact ⟨V', hV, h, hw⟩

-- One write, after which the call is done.
theorem rewrite_answers (h : Lies cfg fs b' top st.metaId st.dirRoot V) (hw : Within N st.dirRoot b b')
    (h' : Lies cfg fs b'' top st.metaId st.dirRoot V') (hw' : Within N st.dirRoot b b'') {rep : FsReply}
    (hr : r = .ok (V', rep)) {x : S Unit} (hx : ∀ H, Spec H (AtRest b' top 0 True) x (rewrites b' b'' top 0 True)) :
    Spec H (On b' top 0 True { st with metaV1 := v1 }) ((x.below : F MapStore Unit) >>= fun _ => pure rep)
      (answering cfg fs st V b N r) := by
  apply below_rewrites hx
  . exact Spec.ret (answering_ok h' hw' hr)
  . rintro s (hb | hb) htop
    . exact answering_cut (.inl rfl) h hw hb htop
    . exact answering_cut (.inr ⟨rep, hr⟩) h' hw' hb htop

end

/-! Paths -/

theorem bind_pure (x : F MapStore α) : x >>= pure = x := by
  apply Subtype.ext
  funext s
  rw [Proc.bind_run]
  generalize x s = o
  obtain ⟨o, t⟩ := o
  cases o <;> rfl

-- The paths that a call is given.
def given : Option CStr → List (List (List UInt8))
  | none => []
  | some path => [pathNames path.chars]

theorem locate_path {names : List (List UInt8)} {q : List (List UInt8)} {n : List UInt8}
    (h : locate V fs p names = .ok (q, n)) (hn : n ≠ []) : q ++ [n] = p ++ names := by
  induction names generalizing p with
  | nil =>
    cases h
    exact absurd rfl hn
  | cons name names ih =>
    unfold locate at h
    split at h
    . cases h
    split at h
    . cases h
    split at h
    . next hlast =>
      cases h
      rw [hlast]
    split at h
    . cases h
    . rw [ih h, List.append_assoc, List.singleton_append]
    . cases h

theorem place_given {mounted : Bool} {path : Option CStr} {x : Place} (h : place fs mounted V path = .ok x)
    (hn : x.name ≠ []) : given path = [x.path] := by
  unfold place at h
  split at h
  . cases h
  split at h
  . cases h
  split at h
  . cases h
  . next hloc =>
    cases h
    rw [given, Place.path, locate_path hloc hn, List.nil_append]

theorem lookup_place {mounted : Bool} {path : Option CStr} {x : Place} {o : Obj (List UInt8)}
    (h : lookup fs mounted V path = .ok (x, o)) : place fs mounted V path = .ok x := by
  unfold lookup at h
  split at h
  . cases h
  next hp =>
  split at h
  . cases h
    exact hp
  split at h
  . cases h
  split at h
  . cases h
  . cases h
    exact hp

/-! Files -/

theorem file_rule {Q : Post (WithRam MapStore Session) Errno α} {φ : Prop}
    (h : st.mounted = true → Built b st.dirRoot st.metaId V) {path : Option CStr} {f : Nat → F MapStore α}
    (herr : ∀ e, fileAt fs st.mounted V path = .error e → ∀ s, On b top k φ st s → Q.err e s)
    (hok : ∀ p id data, fileAt fs st.mounted V path = .ok (p, data) →
      (table b).walk st.dirRoot p = some id → b id = some (.blob data) → V p = some (.file data) →
      Spec H (On b top k φ st) (f id) Q) :
    Spec H (On b top k φ st) (blobfsLookup (storeBacking cfg) fs path >>= f) Q := by
  unfold blobfsLookup
  rw [Proc.bind_assoc]
  apply resolve_rule h
  . intro e he
    apply herr
    rw [fileAt, he]
  . intro x w hx _
    have hisdir := herr Errno.EISDIR (by rw [fileAt, hx])
    exact fun s hs _ => hisdir s hs
  . intro x d es de item hx hname hentry hobj
    cases item with
    | map es' =>
      have hdir := hentry.isDir.mp rfl
      have hisdir := herr Errno.EISDIR (by rw [fileAt, hx]; rfl)
      simp only [if_pos hdir]
      exact fun s hs _ => hisdir s hs
    | blob data =>
      have hdir : ¬ de.type = typeDir := fun hd => nomatch hentry.isDir.mpr hd
      simp only [if_neg hdir]
      apply Spec.ret_bind
      refine hok x.path de.bodyId data (by rw [fileAt, hx]; rfl) ?_ hentry.item hobj
      exact hentry.written.walk hentry.dir hentry.map hentry.entry

section

variable (h : Lies cfg fs b top st.metaId st.dirRoot V)

include h

-- What a lookup answers is what the path resolves to.
theorem lookup_walks (path : Option CStr) :
    Spec H (On b top 0 True st) (blobfsLookup (storeBacking cfg) fs path)
      ⟨fun id s => On b top 0 True st s ∧ ∃ p data, given path = [p] ∧ (table b).walk st.dirRoot p = some id ∧
          b id = some (.blob data),
        fun _ => On b top 0 True st, fun _ => False⟩ := by
  rw [← bind_pure (blobfsLookup (storeBacking cfg) fs path)]
  apply file_rule fun _ => h.built
  . exact fun _ _ _ hs => hs
  intro p id data hfile hp hb hV
  apply Spec.ret
  refine fun s hs => ⟨hs, p, data, ?_, hp, hb⟩
  unfold fileAt at hfile
  split at hfile
  . cases hfile
  . cases hfile
  . next x hx =>
    cases hfile
    apply place_given (lookup_place hx)
    intro hname
    unfold lookup at hx
    rw [lookup_place hx] at hx
    simp only [if_pos hname] at hx
    cases hx

-- The bytes of a file are changed.
theorem Lies.rewritten {old : List UInt8} (hp : (table b).walk st.dirRoot p = some id)
    (hb : b id = some (.blob old)) (data : List UInt8) :
    Lies cfg fs (Function.update b id (some (.blob data))) top st.metaId st.dirRoot
        (Function.update V p (some (.file data))) ∧
      Within N st.dirRoot b (Function.update b id (some (.blob data))) := by
  refine ⟨h.edited_at hp hb (h.built.written hp hb data), fun q _ => ?_⟩
  rw [table_update]
  exact Hierarchy.walk_written (table_blob hb) _ q

theorem read_answers (path : Option CStr) (off len : Nat) :
    Spec H (On b top 0 True st) (blobfsRead (storeFiles cfg) fs path off len >>= fun data => pure (.bytes data))
      (answering cfg fs st V b N (meansRead fs st.mounted V path off len)) := by
  unfold blobfsRead
  rw [Proc.bind_assoc]
  apply file_rule fun _ => h.built
  . intro e he
    apply answering_err h (Within.refl _ _ _)
    rw [meansRead, he]
    exact .inl rfl
  . intro p id data hfile hp hb hV
    apply (says_below (says_blobRead hb off len)).rule_ok
    apply Spec.ret
    apply answering_ok h (Within.refl _ _ _)
    rw [meansRead, hfile]

theorem write_answers (path : Option CStr) (off : Nat) (buf : List UInt8) :
    Spec H (On b top 0 True st) (blobfsWrite (storeFiles cfg) fs path off buf >>= fun _ => pure .unit)
      (answering cfg fs st V b N (meansWrite fs st.mounted V path off buf)) := by
  unfold blobfsWrite
  rw [Proc.bind_assoc]
  apply file_rule fun _ => h.built
  . intro e he
    apply answering_err h (Within.refl _ _ _)
    rw [meansWrite, he]
    exact .inl rfl
  intro p id data hfile hp hb hV
  have hmeans : meansWrite fs st.mounted V path off buf =
      if buf = [] then .ok (V, .unit)
      else if fs.fileMax < off + buf.length then .error Errno.ENOSPC
      else .ok (Function.update V p (some (.file (overwritten data off buf))), .unit) := by
    rw [meansWrite, hfile]
  unfold blobfsWriteId
  by_cases hbuf : buf = []
  . rw [if_pos (List.length_eq_zero_iff.mpr hbuf), Proc.bind_assoc]
    apply (says_below (says_blobSize hb)).rule_ok
    apply Spec.ret
    apply answering_ok h (Within.refl _ _ _)
    rw [hmeans, if_pos hbuf]
  have hpos := List.length_pos_iff.mpr hbuf
  rw [if_neg (by omega)]
  by_cases hmax : fs.fileMax < off + buf.length
  . rw [if_pos (by omega)]
    refine fun s hs _ => answering_err h (Within.refl _ _ _) ?_ s hs
    rw [hmeans, if_neg hbuf, if_pos hmax]
    exact .inl rfl
  . rw [if_neg (by omega)]
    obtain ⟨hlies, hwithin⟩ := h.rewritten hp hb (overwritten data off buf)
    apply rewrite_answers h (Within.refl _ _ _) hlies hwithin
    . rw [hmeans, if_neg hbuf, if_neg hmax]
    . exact fun H => blobWrite_rewrites hb off hbuf

omit h in
theorem resized_self (data : List UInt8) : resized data data.length = data := by
  simp [resized]

omit h in
theorem overwritten_last {data : List UInt8} {size : Nat} (hlt : data.length < size) :
    overwritten data (size - 1) [0] = resized data size := by
  apply List.ext_getElem
  . simp [resized, overwritten_length]
    omega
  . intro i hi hi'
    simp only [overwritten_length, List.length_singleton] at hi
    simp only [overwritten, resized, List.getElem_map, List.getElem_range, List.getElem_append,
      List.length_take, List.getElem_take, List.getElem_replicate, List.length_singleton]
    split
    . next hlast =>
      have hsub : i - (size - 1) = 0 := by omega
      rw [dif_neg (by omega), hsub]
      rfl
    . split
      . next hmin => simp [List.getD, show i < data.length by omega]
      . next hmin => simp [List.getD, show data.length ≤ i by omega]

theorem truncate_answers (path : Option CStr) (size : Nat) :
    Spec H (On b top 0 True st) (blobfsTruncate (storeFiles cfg) fs path size >>= fun _ => pure .unit)
      (answering cfg fs st V b N (meansTruncate fs st.mounted V path size)) := by
  unfold blobfsTruncate
  rw [Proc.bind_assoc]
  apply file_rule fun _ => h.built
  . intro e he
    apply answering_err h (Within.refl _ _ _)
    rw [meansTruncate, he]
    exact .inl rfl
  intro p id data hfile hp hb hV
  have hmeans : meansTruncate fs st.mounted V path size =
      if fs.fileMax < size then .error Errno.ENOSPC
      else .ok (Function.update V p (some (.file (resized data size))), .unit) := by
    rw [meansTruncate, hfile]
  obtain ⟨hlies, hwithin⟩ := h.rewritten (N := N) hp hb (resized data size)
  unfold blobfsTruncateId
  by_cases hmax : fs.fileMax < size
  . rw [if_pos hmax]
    refine fun s hs _ => answering_err h (Within.refl _ _ _) ?_ s hs
    rw [hmeans, if_pos hmax]
    exact .inl rfl
  rw [if_neg hmax] at hmeans ⊢
  rw [Proc.bind_assoc]
  apply (says_below (says_blobSize hb)).rule_ok
  by_cases heq : size = data.length
  . subst heq
    rw [if_pos rfl]
    apply Spec.ret_bind
    apply Spec.ret
    apply answering_ok h (Within.refl _ _ _)
    rw [hmeans, resized_self, ← hV, Function.update_eq_self]
  rw [if_neg heq]
  by_cases hlt : data.length < size
  . rw [if_pos hlt]
    apply rewrite_answers h (Within.refl _ _ _) hlies hwithin hmeans
    intro H
    rw [← overwritten_last hlt]
    exact blobWrite_rewrites hb (size - 1) (by simp)
  . rw [if_neg hlt, Proc.bind_assoc]
    apply (says_below (says_blobRead hb 0 size)).rule_ok
    have hlen : ((data.drop 0).take size).length = size := by
      rw [List.drop_zero, List.length_take]
      omega
    have hres : resized data size = (data.drop 0).take size := by
      have hzero : size - data.length = 0 := by omega
      rw [resized, hzero, List.replicate_zero, List.append_nil, List.drop_zero]
    rw [if_neg (by rw [hlen]; simp)]
    rw [hres] at hlies hmeans hwithin
    exact rewrite_answers h (Within.refl _ _ _) hlies hwithin hmeans fun H => blobUpdate_rewrites id _

theorem stat_answers (path : Option CStr) :
    Spec H (On b top 0 True st) (blobfsStat (storeFiles cfg) fs path >>= fun stat => pure (.stat stat))
      (answering cfg fs st V b N (meansStat fs st.mounted V path)) := by
  unfold blobfsStat
  rw [Proc.bind_assoc]
  apply resolve_rule fun _ => h.built
  . intro e he
    apply answering_err h (Within.refl _ _ _)
    rw [meansStat, he]
    exact .inl rfl
  . intro x w hx _
    apply Spec.ret_bind
    apply Spec.ret
    apply answering_ok h (Within.refl _ _ _)
    rw [meansStat, hx]
  . intro x d es de item hx hname hentry hobj
    simp only [statOf]
    cases item with
    | map es' =>
      rw [if_pos (hentry.isDir.mp rfl)]
      apply Spec.ret_bind
      apply Spec.ret
      apply answering_ok h (Within.refl _ _ _)
      rw [meansStat, hx]
      rfl
    | blob data =>
      have hdir : ¬ de.type = typeDir := fun hd => nomatch hentry.isDir.mpr hd
      rw [if_neg hdir, Proc.bind_assoc]
      apply (says_below (says_blobSize hentry.item)).rule_ok
      apply Spec.ret_bind
      apply Spec.ret
      apply answering_ok h (Within.refl _ _ _)
      rw [meansStat, hx]
      rfl

end

/-! New names -/

theorem free_rule {Q : Post (WithRam MapStore Session) Errno α} {φ : Prop}
    (h : st.mounted = true → Built b st.dirRoot st.metaId V) {path : Option CStr}
    {f : Except Where Where → F MapStore α}
    (herr : ∀ e, place fs st.mounted V path = .error e → ∀ s, On b top k φ st s → Q.err e s)
    (hroot : ∀ x w, place fs st.mounted V path = .ok x → x.name = [] → Spec H (On b top k φ st) (f (.error w)) Q)
    (hthere : ∀ x, place fs st.mounted V path = .ok x → x.name ≠ [] → V x.path ≠ none →
      ∀ s, On b top k φ st s → Q.err Errno.EEXIST s)
    (hok : ∀ x d es, place fs st.mounted V path = .ok x → x.name ≠ [] → V x.path = none →
      (table b).walk st.dirRoot x.dir = some d → b d = some (.map es) → es.lookup x.name = none →
      Keyed x.name → Spec H (On b top k φ st) (f (.ok ⟨d, x.name, x.wantDir⟩)) Q) :
    Spec H (On b top k φ st) (walkToFreeName (storeBacking cfg) fs path >>= f) Q := by
  unfold walkToFreeName
  rw [Proc.bind_assoc]
  apply walk_rule h herr
  intro x d es hx hd hb hlen
  by_cases hname : x.name = []
  . simp only [if_pos hname]
    exact Spec.ret_bind (hroot x _ hx hname)
  simp only [if_neg hname]
  rw [Proc.bind_assoc]
  have hbuilt := h (mounted_of_place hx)
  have hkey := keyed fs hname hlen
  have hview := hbuilt.view_entry hd hb x.name
  apply (says_direntGet hb hkey fun _ => hbuilt.names hd hb).attempt.rule_ok
  unfold entryOf
  cases hval : es.lookup x.name with
  | none =>
    rw [hval] at hview
    simp only [if_true]
    exact Spec.ret_bind (hok x d es hx hname hview hd hb hval hkey)
  | some val =>
    rw [hval] at hview
    obtain ⟨de, item, -, -, hobj⟩ := hview
    have hobj : V x.path = some (nodeOf item).obj := hobj
    exact fun s hs _ => hthere x hx hname (by rw [hobj]; simp) s hs

-- An id that was not handed out, or none.
theorem alloc_rule {Q : Post (WithRam MapStore Session) Errno α} {f : Nat → F MapStore α}
    (hzero : Spec H (On b top 0 True st) (f 0) Q)
    (hnew : ∀ id, top < id → id < 2 ^ 64 → Spec H (On b id 0 True st) (f id) Q) :
    Spec H (On b top 0 True st) ((allocId.below : F MapStore Nat) >>= f) Q := by
  have hany : ∀ {t j s}, AtRest b t j True s → ∀ i, AtRest b t i True s :=
    fun hs _ => ⟨hs.items, hs.top, hs.faults, hs.fates, .inr trivial⟩
  have halloc : Spec H (On b top 0 True st) (allocId.below : F MapStore Nat)
      ⟨fun id s => (id = 0 ∧ On b top 0 True st s) ∨ (top < id ∧ id < 2 ^ 64) ∧ On b id 0 True st s,
        fun _ _ => False, fun _ => False⟩ := by
    rintro s ⟨hs, rfl⟩ -
    have hq := allocId_fresh (H := ⟨fun _ => True, fun _ h => h⟩) s.base (hany hs 1) trivial
    rw [Proc.below_run]
    generalize allocId s.base = o at hq
    obtain ⟨o, t⟩ := o
    cases o with
    | ok id =>
      simp only [Post.Holds] at hq
      split at hq
      . next hid => exact .inl ⟨hid, hany hq.2 0, rfl⟩
      . exact .inr ⟨⟨hq.1, hq.2.1⟩, hany hq.2.2 0, rfl⟩
    | err e => exact hq
    | cut => exact hq
  apply halloc.bind
  . intro id
    apply Spec.either
    . apply Spec.fact
      rintro rfl
      exact hzero
    . exact Spec.fact fun hid => hnew id hid.1 hid.2
  . exact fun _ _ h => h.elim
  . exact fun _ h => h.elim

section

variable {d : Nat} {es : Entries} {name : List UInt8}
  (h : Lies cfg fs b top metaId root V)

include h

theorem Lies.walk_fresh (hid : top < id) (item : Option Item) (q : List (List UInt8)) :
    (table (Function.update b id item)).walk root q = (table b).walk root q := by
  rw [table_update, Hierarchy.walk_outside (h.fresh hid)]

-- Something empty is made at a new id, and then an entry for it.
theorem Lies.made (hp : (table b).walk root p = some d) (hd : b d = some (.map es))
    (hfree : es.lookup name = none) (hid : top < id) (hlt : id < 2 ^ 64) {type : Nat} {item : Item}
    (htype : type = typeFile ∧ item = .blob [] ∨ type = typeDir ∧ item = .map ∅) :
    Function.update b id (some item) d = some (.map es) ∧
      Lies cfg fs (Function.update b id (some item)) id metaId root V ∧
      Lies cfg fs (Function.update (Function.update b id (some item)) d
        (some (.map (es.insert name (newDirent type id).image)))) id metaId root
        (Function.update V (p ++ [name]) (some (nodeOf item).obj)) ∧
      Within [p ++ [name]] root b (Function.update (Function.update b id (some item)) d
        (some (.map (es.insert name (newDirent type id).image)))) := by
  have hne : d ≠ id := by
    have := h.anchored.bound_le hd
    omega
  have hlies := h.outside hid hlt (some item)
  have hp' : (table (Function.update b id (some item))).walk root p = some d := by
    rw [h.walk_fresh hid, hp]
  have hd' : Function.update b id (some item) d = some (.map es) := by
    rw [Function.update_of_ne hne, hd]
  have hx : ∀ q, (table (Function.update b id (some item))).walk root q ≠ some (newDirent type id).bodyId := by
    intro q
    rw [h.walk_fresh hid]
    exact h.fresh hid q
  have hself : Function.update b id (some item) (newDirent type id).bodyId = some item :=
    Function.update_self ..
  have hleaf : ∀ es, item = .map es → es = ∅ := by
    rintro es rfl
    rcases htype with ⟨-, hi⟩ | ⟨-, hi⟩
    . cases hi
    . cases hi
      rfl
  have hsound : (newDirent type id).Sound :=
    ⟨htype.imp And.left And.left, rfl, Nat.two_pow_pos _, Nat.two_pow_pos _, hlt⟩
  have hleads : Leads (Function.update b id (some item)) (newDirent type id) := by
    unfold Leads
    rw [hself]
    rcases htype with ⟨rfl, rfl⟩ | ⟨rfl, rfl⟩
    . exact ⟨[], rfl⟩
    . exact ⟨∅, rfl⟩
  have hmeta := h.meta_le
  have hreg := h.anchored.registry_le
  have hbody : (newDirent type id).bodyId = id := rfl
  refine ⟨hd', hlies,
    hlies.edited_at hp' hd' (hlies.built.bound hp' hd' hfree hsound hleads hx ?_ ?_ hself hleaf), ?_⟩
  . rw [hbody]
    omega
  . rw [hbody]
    omega
  . intro q hq
    have hnone : bodiesOf es name = none := by rw [bodiesOf, hfree, Option.map_none]
    rw [table_update, Option.map_some, nodeOf, bodiesOf_insert hsound,
      Hierarchy.walk_bound hlies.built.unshared hp' (table_map hd') hnone hx (final_item hself hleaf), if_neg,
      h.walk_fresh hid]
    rintro rfl
    exact hq _ (List.mem_singleton_self _) List.prefix_rfl

end

section

variable (h : Lies cfg fs b top st.metaId st.dirRoot V)

include h

theorem create_answers (path : Option CStr) :
    Spec H (On b top 0 True st) (blobfsCreate (storeBacking cfg) fs path >>= fun _ => pure .unit)
      (answering cfg fs st V b (given path) (meansNew fs st.mounted V (.file []) Errno.EISDIR false path)) := by
  unfold blobfsCreate
  rw [Proc.bind_assoc]
  apply free_rule fun _ => h.built
  . intro e he
    apply answering_err h (Within.refl _ _ _)
    rw [meansNew, he]
    exact .inl rfl
  . intro x w hx hname s hs _
    apply answering_err h (Within.refl _ _ _) (.inl _) s hs
    rw [meansNew, hx]
    exact if_pos hname
  . intro x hx hname hV
    apply answering_err h (Within.refl _ _ _) (.inl _)
    rw [meansNew, hx]
    simp only [if_neg hname, if_pos hV]
  intro x d es hx hname hV hd hb hfree hkey
  have hmeans : meansNew fs st.mounted V (.file []) Errno.EISDIR false path =
      if x.wantDir = true then .error Errno.EISDIR
      else .ok (Function.update V x.path (some (.file [])), .unit) := by
    rw [meansNew, hx]
    simp [if_neg hname, hV]
  simp only
  by_cases hwant : x.wantDir = true
  . rw [if_pos hwant]
    refine fun s hs _ => answering_err h (Within.refl _ _ _) (.inl ?_) s hs
    rw [hmeans, if_pos hwant]
  rw [if_neg hwant] at hmeans ⊢
  rw [Proc.bind_assoc]
  apply alloc_rule
  . rw [if_pos rfl]
    exact fun s hs _ => answering_err h (Within.refl _ _ _) (.inr rfl) s hs
  intro id hid hlt
  obtain ⟨hd', hlies, hmade, hwithin⟩ := h.made hd hb hfree hid hlt (.inl ⟨rfl, rfl⟩)
  rw [if_neg (by omega), Proc.bind_assoc]
  have hsame : Within (given path) st.dirRoot b (Function.update b id (some (.blob []))) :=
    Within.outside (h.fresh hid) _
  apply below_rewrites fun H => blobUpdate_rewrites id []
  . rw [place_given hx hname] at hsame ⊢
    apply rewrite_answers hlies hsame hmade hwithin hmeans
    exact fun H => mapSet_rewrites hd' hkey (by simp [Dirent.image, entLenMask])
  . rintro s (hb | hb) htop
    . exact answering_cut (.inl rfl) (h.raise (le_of_lt hid) hlt) (Within.refl _ _ _) hb htop
    . exact answering_cut (.inl rfl) hlies hsame hb htop

omit h in
theorem setSession_rule {Q : Post (WithRam MapStore Session) Errno α} {φ : Prop} {g : Session → Session}
    {f : Unit → F MapStore α} (hf : Spec H (On b top k φ (g st)) (f ()) Q) :
    Spec H (On b top k φ st) (setSession g >>= f) Q := by
  have hset : Spec H (On b top k φ st) (setSession g : F MapStore Unit)
      ⟨fun _ => On b top k φ (g st), fun _ _ => False, fun _ => False⟩ := setSession_on fun _ hs => hs
  exact hset.bind (fun _ => hf) (fun _ _ h => h.elim) fun _ h => h.elim

omit h in
-- No rename is under way.
theorem settle_rule {Q : Post (WithRam MapStore Session) Errno α} {φ : Prop} {f : Unit → F MapStore α}
    (hq : st.intentPending = false) (hf : Spec H (On b top k φ st) (f ()) Q) :
    Spec H (On b top k φ st) (intentSettle (storeBacking cfg) fs >>= f) Q := by
  unfold intentSettle
  rw [Proc.bind_assoc]
  apply says_session.rule_ok
  rw [if_pos hq]
  exact Spec.ret_bind hf

omit h in
-- A write, of `b'` for `b`, whose errors are caught.
theorem attempt_rewrites {φ : Prop} {Q : Post (WithRam MapStore Session) Errno α} {x : S Unit}
    {g : Except Errno Unit → F MapStore α} (hx : ∀ H, Spec H (AtRest b top k φ) x (rewrites b b' top k φ))
    (hg : Spec H (On b' top k φ st) (g (.ok ())) Q)
    (hcut : ∀ s, (s.base.items = b ∨ s.base.items = b') → s.base.top = top → Q.cut s) :
    Spec H (On b top k φ st) (Proc.attempt (x.below : F MapStore Unit) >>= g) Q := by
  have hbelow : Spec H (On b top k φ st) ((x.below : F MapStore Unit) >>= pure)
      ⟨fun _ => On b' top k φ st, fun _ _ => False,
        fun s => (s.base.items = b ∨ s.base.items = b') ∧ s.base.top = top⟩ :=
    below_rewrites hx (Spec.ret fun _ hs => hs) fun _ hb ht => ⟨hb, ht⟩
  rw [bind_pure] at hbelow
  apply hbelow.attempt.bind
  . intro o
    cases o with
    | ok u => exact hg
    | error e => exact fun s hs => hs.elim
  . exact fun _ _ h => h.elim
  . exact fun s h => hcut s h.1 h.2

/-! Names that go -/

omit h in
theorem says_dirIsEmpty {φ : Prop} {d : Nat} {es : Entries} (hb : b d = some (.map es)) :
    Says (On b top k φ st) (dirIsEmpty (storeBacking cfg) d : F MapStore Bool) (.ok (decide (es = ∅))) := by
  unfold dirIsEmpty
  apply (says_below (says_mapFirst hb)).attempt.bind
  by_cases hes : es.entries = []
  . have hempty : es = ∅ := AList.ext hes
    simp only [hempty, decide_true]
    exact Says.ret true
  . have hempty : ¬ es = ∅ := by
      rintro rfl
      exact hes rfl
    simp only [if_neg hes, hempty, decide_false]
    exact Says.ret false

omit h in
theorem occupied_iff (h : Built b root metaId V) {d : Nat} {es : Entries} (hp : (table b).walk root p = some d)
    (hd : b d = some (.map es)) : V.Occupied p ↔ es ≠ ∅ := by
  constructor
  . rintro ⟨name, hname⟩ rfl
    have hview := h.view_entry hp hd name
    rw [AList.lookup_empty] at hview
    exact hname hview
  . intro hne
    obtain ⟨name, hmem⟩ : ∃ name, name ∈ es := by
      by_contra hno
      push Not at hno
      apply hne
      apply AList.ext
      apply List.eq_nil_iff_forall_not_mem.mpr
      intro x hx
      exact hno x.1 (AList.mem_keys.mpr (List.mem_map_of_mem hx))
    obtain ⟨val, hval⟩ := Option.isSome_iff_exists.mp (AList.lookup_isSome.mpr hmem)
    have hview := h.view_entry hp hd name
    rw [hval] at hview
    obtain ⟨de, item, -, -, hobj⟩ := hview
    exact ⟨name, by rw [hobj]; simp⟩

-- An entry goes, and then what it led to.
theorem Lies.gone {d : Nat} {es : Entries} {name : List UInt8} {de : Dirent} {item : Item}
    (hp : (table b).walk st.dirRoot p = some d) (hd : b d = some (.map es)) (hval : es.lookup name = some de.image)
    (hw : Written b de.image de) (hb : b de.bodyId = some item) (hleaf : ∀ es, item = .map es → es = ∅) :
    Function.update b d (some (.map (es.erase name))) de.bodyId = some item ∧
      Lies cfg fs (Function.update b d (some (.map (es.erase name)))) top st.metaId st.dirRoot
        (Function.update V (p ++ [name]) none) ∧
      Within [p ++ [name]] st.dirRoot b (Function.update b d (some (.map (es.erase name)))) ∧
      Lies cfg fs (Function.update (Function.update b d (some (.map (es.erase name)))) de.bodyId none) top
        st.metaId st.dirRoot (Function.update V (p ++ [name]) none) ∧
      Within [p ++ [name]] st.dirRoot b
        (Function.update (Function.update b d (some (.map (es.erase name)))) de.bodyId none) := by
  have hbody := hw.walk hp hd hval
  have hne : de.bodyId ≠ d := by
    intro he
    have := h.built.unshared _ _ _ hbody (he ▸ hp)
    simp at this
  have hsome : bodiesOf es name = some de.bodyId := by rw [bodiesOf, hval, Option.map_some, hw.body]
  have hwalk : ∀ q, (table (Function.update b d (some (.map (es.erase name))))).walk st.dirRoot q =
      if q = p ++ [name] then none else (table b).walk st.dirRoot q := by
    intro q
    rw [table_update, Option.map_some, nodeOf, bodiesOf_erase,
      Hierarchy.walk_unbound h.built.unshared hp (table_map hd) hsome (final_item hb hleaf)]
  have hlies := h.edited_at hp hd (h.built.unbound hp hd hval hw hb hleaf)
  have hwithin : Within [p ++ [name]] st.dirRoot b (Function.update b d (some (.map (es.erase name)))) := by
    intro q hq
    rw [hwalk, if_neg]
    rintro rfl
    exact hq _ (List.mem_singleton_self _) List.prefix_rfl
  have hx : ∀ q, (table (Function.update b d (some (.map (es.erase name))))).walk st.dirRoot q ≠ some de.bodyId := by
    intro q hq
    rw [hwalk] at hq
    split at hq
    . cases hq
    . next hqn => exact hqn (h.built.unshared _ _ _ hq hbody)
  refine ⟨by rw [Function.update_of_ne hne, hb], hlies, hwithin, ?_, hwithin.trans (Within.outside hx _)⟩
  exact hlies.edited (h.anchored.bound_le hb) (h.anchored.bound_pos hb) (fun he => h.built.registry _ (he ▸ hbody))
    (fun he => h.built.info _ (he ▸ hbody)) (hlies.built.outside hx none)

theorem unlink_answers (hq : st.intentPending = false) (path : Option CStr) :
    Spec H (On b top 0 True st) (blobfsUnlink (storeBacking cfg) fs path >>= fun _ => pure .unit)
      (answering cfg fs st V b (given path) (meansUnlink fs st.mounted V path)) := by
  unfold blobfsUnlink
  rw [Proc.bind_assoc]
  apply settle_rule hq
  rw [Proc.bind_assoc]
  apply resolve_rule fun _ => h.built
  . intro e he
    apply answering_err h (Within.refl _ _ _)
    rw [meansUnlink, he]
    exact .inl rfl
  . intro x w hx hname s hs _
    apply answering_err h (Within.refl _ _ _) (.inl _) s hs
    rw [meansUnlink, hx]
    exact if_pos hname
  intro x d es de item hx hname hentry hobj
  have hbody := hentry.written.walk hentry.dir hentry.map hentry.entry
  have hgiven : given path = [x.path] := place_given (lookup_place hx) hname
  have hrest : (∀ es, item = .map es → es = ∅) → Spec H (On b top 0 True st)
      ((do
        (mapDel d x.name).below
        let _ ← Proc.attempt (if de.type = typeDir then (mapDestroy de.bodyId).below
          else (blobDelete de.bodyId).below : F MapStore Unit)
        pure () : F MapStore Unit) >>= fun _ => pure .unit)
      (answering cfg fs st V b (given path) (meansUnlink fs st.mounted V path)) := by
    intro hleaf
    have hmeans : meansUnlink fs st.mounted V path = .ok (Function.update V x.path none, .unit) := by
      rw [meansUnlink, hx]
      simp only [if_neg hname]
      apply if_neg
      rintro ⟨hdir, hocc⟩
      cases item with
      | map es' => exact (occupied_iff h.built hbody hentry.item).mp hocc (hleaf es' rfl)
      | blob data => cases hdir
    obtain ⟨hitem, hlies, hwithin, hlies', hwithin'⟩ :=
      h.gone hentry.dir hentry.map hentry.entry hentry.written hentry.item hleaf
    have hrelease : ∀ H, Spec H (AtRest (Function.update b d (some (.map (es.erase x.name)))) top 0 True)
        (if de.type = typeDir then mapDestroy de.bodyId else blobDelete de.bodyId)
        (rewrites (Function.update b d (some (.map (es.erase x.name))))
          (Function.update (Function.update b d (some (.map (es.erase x.name)))) de.bodyId none) top 0 True) := by
      intro H
      cases item with
      | map es' =>
        rw [if_pos (hentry.isDir.mp rfl)]
        exact mapDestroy_rewrites hitem
      | blob data =>
        rw [if_neg fun hd => nomatch hentry.isDir.mpr hd]
        exact blobDelete_rewrites hitem
    rw [hgiven, Proc.bind_assoc]
    apply below_rewrites fun H => mapDel_rewrites hentry.map hentry.key (by rw [hentry.entry]; rfl)
    rotate_left
    . rintro s (hb | hb) htop
      . exact answering_cut (.inl rfl) h (Within.refl _ _ _) hb htop
      . exact answering_cut (.inr ⟨_, hmeans⟩) hlies hwithin hb htop
    -- what is not released is garbage
    rw [Proc.bind_assoc, ← Proc.below_ite]
    apply attempt_rewrites hrelease
    . apply Spec.ret_bind
      exact Spec.ret (answering_ok hlies' hwithin' hmeans)
    . rintro s (hb | hb) htop
      . exact answering_cut (.inr ⟨_, hmeans⟩) hlies hwithin hb htop
      . exact answering_cut (.inr ⟨_, hmeans⟩) hlies' hwithin' hb htop
  cases item with
  | blob data =>
    have hdir : ¬ de.type = typeDir := fun hd => nomatch hentry.isDir.mpr hd
    have hgo := hrest nofun
    simp only [if_neg hdir] at hgo ⊢
    exact Spec.ret_bind hgo
  | map es' =>
    have hdir := hentry.isDir.mp rfl
    simp only [if_pos hdir]
    rw [Proc.bind_assoc]
    apply (says_dirIsEmpty hentry.item).rule_ok
    rw [Proc.bind_assoc]
    apply Spec.ret_bind
    by_cases hes : es' = ∅
    . have hgo := hrest fun es he => by cases he; exact hes
      simp only [hes, decide_true, Bool.not_true, if_pos hdir] at hgo ⊢
      exact hgo
    . simp only [hes, decide_false, Bool.not_false, if_true]
      refine fun s hs _ => answering_err h (Within.refl _ _ _) (.inl ?_) s hs
      rw [meansUnlink, hx]
      simp only [if_neg hname]
      exact if_pos ⟨rfl, (occupied_iff h.built hbody hentry.item).mpr hes⟩

end

end

end KeyValueDb.Blobfs
