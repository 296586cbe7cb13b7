import KeyValueDb.Blobfs.Calls

/-!
The meta, and what is written there: the intent of a rename, which is what a mount goes on from where
power was lost in one.
-/

namespace KeyValueDb.Blobfs

open Containers Kvdb Rootreg

/-! The meta as bytes -/

-- What the fields of a meta can hold.
structure Meta.Sound (fs : FsCfg) (m : Meta) : Prop where
  renameInFlight : m.renameInFlight < 256
  fromLen : m.fromLen < 256
  toLen : m.toLen < 256
  dirRoot : m.dirRoot < 2 ^ 64
  renameBody : m.renameBody < 2 ^ 64
  fromDir : m.fromDir < 2 ^ 64
  toDir : m.toDir < 2 ^ 64
  fromName : m.fromName.length = fs.nameMax + 1
  toName : m.toName.length = fs.nameMax + 1

theorem fieldAt_lt (buf : List UInt8) (off w : Nat) : fieldAt buf off w < 256 ^ w := by
  apply lt_of_lt_of_le (leNat_lt _)
  apply Nat.pow_le_pow_right (by decide)
  rw [List.length_take]
  omega

theorem metaOf_sound {fs : FsCfg} {data : List UInt8} {m : Meta} {v1 : Bool} (h : metaOf fs data = .ok (m, v1)) :
    m.Sound fs ∧ data.length ≤ metaLen fs := by
  have hbyte : ∀ off, fieldAt data off 1 < 256 := fun off => fieldAt_lt data off 1
  have hid : ∀ off, fieldAt data off 8 < 2 ^ 64 := fun off => fieldAt_lt data off 8
  unfold metaOf at h
  split at h
  . cases h
  split at h
  . next hlen =>
    have hlen := hlen.1
    unfold metaLen align8 at hlen
    cases h
    refine ⟨⟨hbyte _, hbyte _, hbyte _, hid _, hid _, hid _, hid _, ?_, ?_⟩, ?_⟩
    . simp only [List.length_take, List.length_drop]
      omega
    . simp only [List.length_take, List.length_drop]
      omega
    . unfold metaLen align8
      omega
  split at h
  . next hlen =>
    have hlen := hlen.1
    unfold metaLen1 align8 at hlen
    cases h
    refine ⟨⟨hbyte _, hbyte _, hbyte _, hid _, hid _, hid _, hid _, ?_, ?_⟩, ?_⟩
    . simp only [List.length_take, List.length_drop]
      omega
    . simp only [List.length_take, List.length_drop]
      omega
    . unfold metaLen align8
      omega
  . cases h

-- What is written reads back.
theorem metaOf_image {fs : FsCfg} {m : Meta} (h : m.Sound fs) : metaOf fs (metaImage fs m) = .ok (m, false) := by
  have hbyte : ∀ n, n < 256 → n < 256 ^ 1 := by
    intro n hn
    omega
  have hid : ∀ n, n < 2 ^ 64 → n < 256 ^ 8 := fun n hn => hn
  have hlen : (metaImage fs m).length = metaLen fs := by
    simp only [metaImage, List.length_append, leBytes_length, List.length_replicate, h.fromName, h.toName]
    unfold metaLen align8
    omega
  have hpos : metaLen fs ≠ 0 := by
    unfold metaLen align8
    omega
  have himage : metaImage fs m = leBytes blobfsMagic 4 ++ (leBytes metaVersion 1 ++ (leBytes m.renameInFlight 1 ++
    (leBytes m.fromLen 1 ++ (leBytes m.toLen 1 ++ (leBytes m.dirRoot 8 ++ (leBytes m.renameBody 8 ++
      (leBytes m.fromDir 8 ++ (leBytes m.toDir 8 ++ (m.fromName ++ (m.toName ++
        List.replicate (metaLen fs - (40 + 2 * (fs.nameMax + 1))) 0)))))))))) := by
    simp only [metaImage, List.append_assoc]
  have h0 : fieldAt (metaImage fs m) 0 4 = blobfsMagic := by
    rw [himage]
    exact fieldAt_leBytes _ _ _ (by decide)
  have h4 : fieldAt (metaImage fs m) 4 1 = metaVersion := by
    rw [himage, fieldAt_append _ _ _ 0 _ (by simp)]
    exact fieldAt_leBytes _ _ _ (by decide)
  have h5 : fieldAt (metaImage fs m) 5 1 = m.renameInFlight := by
    rw [himage, fieldAt_append _ _ _ 1 _ (by simp), fieldAt_append _ _ _ 0 _ (by simp)]
    exact fieldAt_leBytes _ _ _ (hbyte _ h.renameInFlight)
  have h6 : fieldAt (metaImage fs m) 6 1 = m.fromLen := by
    rw [himage, fieldAt_append _ _ _ 2 _ (by simp), fieldAt_append _ _ _ 1 _ (by simp),
      fieldAt_append _ _ _ 0 _ (by simp)]
    exact fieldAt_leBytes _ _ _ (hbyte _ h.fromLen)
  have h7 : fieldAt (metaImage fs m) 7 1 = m.toLen := by
    rw [himage, fieldAt_append _ _ _ 3 _ (by simp), fieldAt_append _ _ _ 2 _ (by simp),
      fieldAt_append _ _ _ 1 _ (by simp), fieldAt_append _ _ _ 0 _ (by simp)]
    exact fieldAt_leBytes _ _ _ (hbyte _ h.toLen)
  have htail : ∀ off w, fieldAt (metaImage fs m) (8 + off) w =
      fieldAt (leBytes m.dirRoot 8 ++ (leBytes m.renameBody 8 ++ (leBytes m.fromDir 8 ++ (leBytes m.toDir 8 ++
        (m.fromName ++ (m.toName ++ List.replicate (metaLen fs - (40 + 2 * (fs.nameMax + 1))) 0)))))) off w := by
    intro off w
    rw [himage, fieldAt_append _ _ _ (4 + off) _ (by simp; omega), fieldAt_append _ _ _ (3 + off) _ (by simp; omega),
      fieldAt_append _ _ _ (2 + off) _ (by simp; omega), fieldAt_append _ _ _ (1 + off) _ (by simp; omega),
      fieldAt_append _ _ _ off _ (by simp)]
  have h8 : fieldAt (metaImage fs m) 8 8 = m.dirRoot :=
    (htail 0 8).trans (fieldAt_leBytes _ _ _ (hid _ h.dirRoot))
  have h16 : fieldAt (metaImage fs m) 16 8 = m.renameBody := by
    apply (htail 8 8).trans
    rw [fieldAt_append _ _ _ 0 _ (by simp)]
    exact fieldAt_leBytes _ _ _ (hid _ h.renameBody)
  have h24 : fieldAt (metaImage fs m) 24 8 = m.fromDir := by
    apply (htail 16 8).trans
    rw [fieldAt_append _ _ _ 8 _ (by simp), fieldAt_append _ _ _ 0 _ (by simp)]
    exact fieldAt_leBytes _ _ _ (hid _ h.fromDir)
  have h32 : fieldAt (metaImage fs m) 32 8 = m.toDir := by
    apply (htail 24 8).trans
    rw [fieldAt_append _ _ _ 16 _ (by simp), fieldAt_append _ _ _ 8 _ (by simp), fieldAt_append _ _ _ 0 _ (by simp)]
    exact fieldAt_leBytes _ _ _ (hid _ h.toDir)
  have hnames : (metaImage fs m).drop 40 = m.fromName ++ (m.toName ++
      List.replicate (metaLen fs - (40 + 2 * (fs.nameMax + 1))) 0) := by
    rw [himage]
    simp [leBytes]
  have hfrom : ((metaImage fs m).drop 40).take (fs.nameMax + 1) = m.fromName := by
    rw [hnames, ← h.fromName, List.take_left]
  have hto : ((metaImage fs m).drop (41 + fs.nameMax)).take (fs.nameMax + 1) = m.toName := by
    rw [show 41 + fs.nameMax = 40 + (fs.nameMax + 1) by omega, ← List.drop_drop, hnames, ← h.fromName,
      List.drop_left, h.fromName, ← h.toName, List.take_left]
  rw [metaOf, hlen, if_neg hpos, if_pos ⟨rfl, h0, h4⟩, h5, h6, h7, h8, h16, h24, h32, hfrom, hto]

section

variable {cfg : RegCfg} {fs : FsCfg} {H : Hypothesis (WithRam MapStore Session)} {α : Type} {b b' : Items}
  {top k id metaId root : Nat} {φ : Prop} {st : Session} {V V' : Files} {p : List (List UInt8)}
  {N : List (List (List UInt8))}

theorem says_metaRead {data : List UInt8} {x : Meta × Bool} (hb : b id = some (.blob data))
    (hof : metaOf fs data = .ok x) :
    Says (On b top k φ st) (metaRead (storeBacking cfg) fs id : F MapStore (Meta × Bool)) (.ok x) := by
  unfold metaRead
  apply (says_below (says_blobGet hb (metaOf_sound hof).2)).bind
  rw [hof]
  exact Says.ofExcept _

theorem metaWrite_rule {Q : Post (WithRam MapStore Session) Errno α} {m : Meta} {f : Unit → F MapStore α}
    (hf : Spec H (On (Function.update b st.metaId (some (.blob (metaImage fs m)))) top k φ
      { st with metaV1 := false }) (f ()) Q)
    (hcut : ∀ s, (s.base.items = b ∨ s.base.items = Function.update b st.metaId (some (.blob (metaImage fs m)))) →
      s.base.top = top → Q.cut s) :
    Spec H (On b top k φ st) (metaWrite (storeBacking cfg) fs m >>= f) Q := by
  unfold metaWrite
  rw [Proc.bind_assoc]
  apply says_session.rule_ok
  rw [Proc.bind_assoc]
  apply below_rewrites fun H => blobUpdate_rewrites st.metaId _
  . exact setSession_rule hf
  . exact hcut

-- The meta is not part of the file system.
theorem Built.agree (h : Built b root metaId V) (hb : ∀ i, i ≠ metaId → b' i = b i) :
    Built b' root metaId V ∧ Within N root b b' := by
  have he : b' = Function.update b metaId (b' metaId) := by
    funext i
    by_cases hi : i = metaId
    . rw [hi, Function.update_self]
    . rw [Function.update_of_ne hi, hb i hi]
  rw [he]
  exact ⟨h.outside h.info _, Within.outside h.info _⟩

theorem Anchored.settled (ha : Anchored cfg b top metaId) {item : Item} (hb : b metaId = some item)
    (h : Built b root metaId V) {m : Meta} (hm : m.Sound fs) (h0 : m.renameInFlight = 0) (hr : m.dirRoot = root) :
    Lies cfg fs (Function.update b metaId (some (.blob (metaImage fs m)))) top metaId root V where
  anchored := ha.edited (ha.bound_le hb) (ha.bound_pos hb) ha.apart _
  info := ⟨m, ⟨_, false, Function.update_self .., metaOf_image hm⟩, h0, hr⟩
  built := h.outside h.info _

theorem Within.same (h : Within [] root b b') (q : List (List UInt8)) :
    (table b').walk root q = (table b).walk root q := h q (List.forall_mem_nil _)

theorem Within.widen (h : Within [] root b b') : Within N root b b' := fun q _ => h.same q

/-! Directories -/

section

variable (h : Lies cfg fs b top st.metaId st.dirRoot V)

include h

theorem upgrade_rule {Q : Post (WithRam MapStore Session) Errno α} {f : Unit → F MapStore α}
    (hf : ∀ b' v1, Lies cfg fs b' top st.metaId st.dirRoot V → Within [] st.dirRoot b b' →
      (∀ i, i ≠ st.metaId → b' i = b i) → Spec H (On b' top 0 True { st with metaV1 := v1 }) (f ()) Q)
    (hcut : ∀ s b', Lies cfg fs b' top st.metaId st.dirRoot V → Within [] st.dirRoot b b' →
      s.base.items = b' → s.base.top = top → Q.cut s) :
    Spec H (On b top 0 True st) (metaUpgrade (storeBacking cfg) fs >>= f) Q := by
  unfold metaUpgrade
  rw [Proc.bind_assoc]
  apply says_session.rule_ok
  by_cases hv : st.metaV1 = false
  . rw [if_pos hv]
    exact Spec.ret_bind (hf b st.metaV1 h (Within.refl _ _ _) fun _ _ => rfl)
  obtain ⟨m, ⟨data, v1, hdata, hof⟩, h0, hr⟩ := h.info
  rw [if_neg hv, Proc.bind_assoc]
  apply (says_metaRead hdata hof).rule_ok
  have hlies := h.anchored.settled hdata h.built (metaOf_sound hof).1 h0 hr
  have hwithin : Within [] st.dirRoot b (Function.update b st.metaId (some (.blob (metaImage fs m)))) :=
    Within.outside h.built.info _
  apply metaWrite_rule
  . exact hf _ false hlies hwithin fun i hi => Function.update_of_ne hi _ _
  . rintro s (hb | hb) htop
    . exact hcut s b h (Within.refl _ _ _) hb htop
    . exact hcut s _ hlies hwithin hb htop

theorem mkdir_answers (path : Option CStr) :
    Spec H (On b top 0 True st) (blobfsMkdir (storeBacking cfg) fs path >>= fun _ => pure .unit)
      (answering cfg fs st V b (given path) (meansNew fs st.mounted V .dir Errno.EEXIST true path)) := by
  unfold blobfsMkdir
  rw [Proc.bind_assoc]
  apply free_rule fun _ => h.built
  . intro e he
    apply answering_err h (Within.refl _ _ _)
    rw [meansNew, he]
    exact .inl rfl
  . intro x w hx hname s hs _
    apply answering_err h (Within.refl _ _ _) (.inl _) s hs
    rw [meansNew, hx]
    exact if_pos hname
  . intro x hx hname hV
    apply answering_err h (Within.refl _ _ _) (.inl _)
    rw [meansNew, hx]
    simp only [if_neg hname, if_pos hV]
  intro x d es hx hname hV hd hb hfree hkey
  have hmeans : meansNew fs st.mounted V .dir Errno.EEXIST true path =
      .ok (Function.update V x.path (some .dir), .unit) := by
    rw [meansNew, hx]
    simp [if_neg hname, hV]
  simp only
  rw [Proc.bind_assoc]
  apply upgrade_rule h
  rotate_left
  . intro s b' h' hw' hb htop
    exact answering_cut (.inl rfl) h' hw'.widen hb htop
  intro b' v1 h' hw' hsame
  have hd' : (table b').walk st.dirRoot x.dir = some d := (hw'.same _).trans hd
  have hb' : b' d = some (.map es) := (hsame d fun he => h.built.info _ (he ▸ hd)).trans hb
  rw [Proc.bind_assoc]
  apply alloc_rule
  . rw [if_pos rfl]
    exact fun s hs _ => answering_err h' hw'.widen (.inr rfl) s hs
  intro id hid hlt
  obtain ⟨hmap, hlies, hmade, hwithin⟩ := h'.made hd' hb' hfree hid hlt (.inr ⟨rfl, rfl⟩)
  have hsame' : Within (given path) st.dirRoot b (Function.update b' id (some (.map ∅))) :=
    hw'.widen.trans (Within.outside (h'.fresh hid) _)
  rw [place_given hx hname] at hsame' ⊢
  rw [if_neg (by omega), Proc.bind_assoc]
  apply below_rewrites fun H => writeItem_rewrites id _
  rotate_left
  . rintro s (hb | hb) htop
    . exact answering_cut (.inl rfl) (h'.raise (le_of_lt hid) hlt) hw'.widen hb htop
    . exact answering_cut (.inl rfl) hlies hsame' hb htop
  rw [Proc.bind_assoc]
  apply attempt_rewrites fun H => mapSet_rewrites hmap hkey (by simp [Dirent.image, entLenMask])
  . apply Spec.ret_bind
    exact Spec.ret (answering_ok hmade (hw'.widen.trans hwithin) hmeans)
  . rintro s (hb | hb) htop
    . exact answering_cut (.inl rfl) hlies hsame' hb htop
    . exact answering_cut (.inr ⟨_, hmeans⟩) hmade (hw'.widen.trans hwithin) hb htop

end

/-! Renames -/

-- The entry `name` of the directory `dir` at `path` is to be `name'`.
structure Move where
  path : List (List UInt8)
  dir : Nat
  entries : Entries
  name : List UInt8
  name' : List UInt8
  dirent : Dirent

namespace Move

variable (x : Move)

def old : List (List UInt8) := x.path ++ [x.name]

def new : List (List UInt8) := x.path ++ [x.name']

-- The directory has the entry under its new name too.
def both : Entries := x.entries.insert x.name' x.dirent.image

def done : Entries := x.both.erase x.name

end Move

-- The move is one that can be made in the file system `V`.
structure Moving (fs : FsCfg) (b : Items) (root metaId : Nat) (V : Files) (x : Move) : Prop where
  built : Built b root metaId V
  dir : (table b).walk root x.path = some x.dir
  map : b x.dir = some (.map x.entries)
  entry : x.entries.lookup x.name = some x.dirent.image
  written : Written b x.dirent.image x.dirent
  free : x.entries.lookup x.name' = none
  key : Keyed x.name
  key' : Keyed x.name'
  length : x.name.length ≤ fs.nameMax
  length' : x.name'.length ≤ fs.nameMax

-- The intent of the move, as it is written.
structure Records (m : Meta) (root : Nat) (x : Move) : Prop where
  inFlight : m.renameInFlight ≠ 0
  dirRoot : m.dirRoot = root
  fromLen : m.fromLen = x.name.length
  toLen : m.toLen = x.name'.length
  fromDir : m.fromDir = x.dir
  toDir : m.toDir = x.dir
  body : m.renameBody = x.dirent.bodyId
  fromName : m.from = x.name
  toName : m.to = x.name'

-- The move is under way: it is written down, and the entry is there under its old name, under both or under
-- the new one.
structure Flight (cfg : RegCfg) (fs : FsCfg) (b0 : Items) (root metaId : Nat) (V : Files) (x : Move) (b : Items)
    (top : Nat) : Prop where
  anchored : Anchored cfg b top metaId
  moving : Moving fs b0 root metaId V x
  info : ∃ m, MetaIs fs b metaId m ∧ Records m root x
  stage : ∃ es, (es = x.entries ∨ es = x.both ∨ es = x.done) ∧
    ∀ i, i ≠ metaId → b i = Function.update b0 x.dir (some (.map es)) i

-- The move is made or not, and what was moved has one of the names.
def Settled (cfg : RegCfg) (fs : FsCfg) (b0 : Items) (root metaId : Nat) (V : Files) (x : Move) (b : Items)
    (top : Nat) : Prop :=
  ∃ V', (V' = V ∨ V' = V.moved x.path x.name x.name') ∧ Lies cfg fs b top metaId root V' ∧
    Within [x.old, x.new] root b0 b ∧ (table b0).walk root x.old = some x.dirent.bodyId ∧
    ((table b).walk root x.old = some x.dirent.bodyId ∧ (table b).walk root x.new = none ∨
      (table b).walk root x.old = none ∧ (table b).walk root x.new = some x.dirent.bodyId)

section

variable {b0 : Items} {x : Move} (h : Moving fs b0 root metaId V x)

include h

theorem Moving.ne : x.name ≠ x.name' := by
  intro he
  have hfree := h.free
  rw [← he, h.entry] at hfree
  cases hfree

theorem Moving.apart : x.dir ≠ metaId := fun he => h.built.info _ (he ▸ h.dir)

theorem Moving.body : (table b0).walk root x.old = some x.dirent.bodyId := h.written.walk h.dir h.map h.entry

theorem Moving.vacant : (table b0).walk root x.new = none := by
  rw [Move.new, Hierarchy.walk_snoc h.dir, Hierarchy.entry_dir (table_map h.map), bodiesOf, h.free]
  rfl

-- The entry has its old name.
theorem Moving.stays (hb : ∀ i, i ≠ metaId → b i = Function.update b0 x.dir (some (.map x.entries)) i) :
    Built b root metaId V ∧ Within N root b0 b := by
  rw [← h.map, Function.update_eq_self] at hb
  exact h.built.agree hb

-- The entry has its new name.
theorem Moving.moves (hb : ∀ i, i ≠ metaId → b i = Function.update b0 x.dir (some (.map x.done)) i) :
    Built b root metaId (V.moved x.path x.name x.name') ∧ Within [x.old, x.new] root b0 b ∧
      (table b).walk root x.old = none ∧ (table b).walk root x.new = some x.dirent.bodyId := by
  have hsome : bodiesOf x.entries x.name = some x.dirent.bodyId := by
    rw [bodiesOf, h.entry, Option.map_some, h.written.body]
  have hbuilt := h.built.moved h.dir h.map h.entry h.written h.ne
  obtain ⟨hb', hw⟩ := hbuilt.agree (N := []) hb
  have hwalk : ∀ q, (table b).walk root q =
      if x.new <+: q then (table b0).walk root (x.path ++ x.name :: q.drop (x.path.length + 1))
      else if x.old <+: q then none else (table b0).walk root q := by
    intro q
    rw [hw.same, table_update, Option.map_some, nodeOf, bodiesOf_erase, bodiesOf_insert h.written.sound,
      Hierarchy.walk_moved h.built.unshared h.dir (table_map h.map) h.ne hsome]
    rfl
  refine ⟨hb', ?_, ?_, ?_⟩
  . intro q hq
    rw [hwalk, if_neg (hq _ (by simp)), if_neg (hq _ (by simp))]
  . rw [hwalk, if_neg, if_pos List.prefix_rfl]
    intro hp
    have := hp.eq_of_length (by simp [Move.old, Move.new])
    simp [Move.old, Move.new, h.ne.symm] at this
  . rw [hwalk, if_pos List.prefix_rfl]
    have hdrop : x.new.drop (x.path.length + 1) = [] := by simp [Move.new]
    rw [hdrop]
    exact h.body

theorem Moving.settled (ha : Anchored cfg b top metaId) {item : Item} (hb : b metaId = some item)
    (hs : (∀ i, i ≠ metaId → b i = Function.update b0 x.dir (some (.map x.entries)) i) ∨
      ∀ i, i ≠ metaId → b i = Function.update b0 x.dir (some (.map x.done)) i)
    {m : Meta} (hm : m.Sound fs) (h0 : m.renameInFlight = 0) (hr : m.dirRoot = root) :
    Settled cfg fs b0 root metaId V x (Function.update b metaId (some (.blob (metaImage fs m)))) top := by
  have hoff : ∀ i, i ≠ metaId → Function.update b metaId (some (.blob (metaImage fs m))) i = b i :=
    fun i hi => Function.update_of_ne hi _ _
  rcases hs with hs | hs
  . have hbuilt := (h.stays (N := []) hs).1
    have hw : Within [] root b0 _ := (h.stays fun i hi => (hoff i hi).trans (hs i hi)).2
    refine ⟨V, .inl rfl, ha.settled hb hbuilt hm h0 hr, hw.widen, h.body, .inl ⟨?_, ?_⟩⟩
    . rw [hw.same]
      exact h.body
    . rw [hw.same]
      exact h.vacant
  . have hbuilt := (h.moves hs).1
    obtain ⟨-, hw, hold, hnew⟩ := h.moves fun i hi => (hoff i hi).trans (hs i hi)
    exact ⟨_, .inr rfl, ha.settled hb hbuilt hm h0 hr, hw, h.body, .inr ⟨hold, hnew⟩⟩

end

theorem intentClear_sound {m : Meta} (h : m.Sound fs) : (intentClear fs m).Sound fs :=
  ⟨(by decide : 0 < 256), (by decide : 0 < 256), (by decide : 0 < 256), h.dirRoot, Nat.two_pow_pos _,
    Nat.two_pow_pos _, Nat.two_pow_pos _, by simp [intentClear, nameArray], by simp [intentClear, nameArray]⟩

theorem renameIntent_sound {n n' : List UInt8} {d : Nat} {w w' : Bool} {de : Dirent} (hroot : root < 2 ^ 64)
    (hbody : de.bodyId < 2 ^ 64) (hd : d < 2 ^ 64) (hn : n.length ≤ fs.nameMax) (hn' : n'.length ≤ fs.nameMax) :
    (renameIntent fs root ⟨d, n, w⟩ ⟨d, n', w'⟩ de).Sound fs := by
  have hmax := fs.name_le
  have hlen : ∀ l : List UInt8, l.length ≤ fs.nameMax → (nameArray fs l).length = fs.nameMax + 1 := by
    intro l hl
    simp only [nameArray, List.length_append, List.length_replicate]
    omega
  exact ⟨(by decide : 1 < 256), lt_of_le_of_lt (hn.trans hmax) (by decide),
    lt_of_le_of_lt (hn'.trans hmax) (by decide), hroot, hbody, hd, hd, hlen n hn, hlen n' hn'⟩

theorem renameIntent_records (x : Move) (w w' : Bool) :
    Records (renameIntent fs root ⟨x.dir, x.name, w⟩ ⟨x.dir, x.name', w'⟩ x.dirent) root x :=
  ⟨Nat.one_ne_zero, rfl, rfl, rfl, rfl, rfl, rfl, by simp [Meta.from, renameIntent, nameArray],
    by simp [Meta.to, renameIntent, nameArray]⟩

-- What a call that makes the move answers and leaves.
def moves (cfg : RegCfg) (fs : FsCfg) (st : Session) (V : Files) (b : Items) (x : Move) :
    Post (WithRam MapStore Session) Errno FsReply :=
  { answering cfg fs st V b [x.old, x.new] (.ok (V.moved x.path x.name x.name', .unit)) with
    cut := fun s => Flight cfg fs b st.dirRoot st.metaId V x s.base.items s.base.top ∨
      Settled cfg fs b st.dirRoot st.metaId V x s.base.items s.base.top }

theorem renameMove_moves {x : Move} (hl : Lies cfg fs b top st.metaId st.dirRoot V) (hq : st.intentPending = false)
    (h : Moving fs b st.dirRoot st.metaId V x) (w w' : Bool) :
    Spec H (On b top 0 True st)
      (renameMove (storeBacking cfg) fs ⟨x.dir, x.name, w⟩ ⟨x.dir, x.name', w'⟩ x.dirent >>= fun _ => pure .unit)
      (moves cfg fs st V b x) := by
  have hbound : ∀ {i item}, b i = some item → i < 2 ^ 64 := fun hi =>
    lt_of_le_of_lt (hl.anchored.bound_le hi) hl.anchored.top_lt
  obtain ⟨es, hroot⟩ := h.built.start
  obtain ⟨item, hitem⟩ := h.written.leads.reached
  obtain ⟨m0, ⟨data, v1, hdata, hof⟩, -, -⟩ := hl.info
  have hsound : (renameIntent fs st.dirRoot ⟨x.dir, x.name, w⟩ ⟨x.dir, x.name', w'⟩ x.dirent).Sound fs :=
    renameIntent_sound (hbound hroot) (hbound hitem) (hbound h.map) h.length h.length'
  have hrecords : Records (renameIntent fs st.dirRoot ⟨x.dir, x.name, w⟩ ⟨x.dir, x.name', w'⟩ x.dirent)
    st.dirRoot x := renameIntent_records x w w'
  generalize hm : renameIntent fs st.dirRoot ⟨x.dir, x.name, w⟩ ⟨x.dir, x.name', w'⟩ x.dirent = m at hsound hrecords
  -- the stages of the store
  have hmetale := hl.anchored.bound_le hdata
  have hmetapos := hl.anchored.bound_pos hdata
  have hdirle := hl.anchored.bound_le h.map
  have hdirpos := hl.anchored.bound_pos h.map
  have hdirreg : x.dir ≠ blobDbRootId := fun he => h.built.registry _ (he ▸ h.dir)
  let b1 := Function.update b st.metaId (some (.blob (metaImage fs m)))
  let b2 := Function.update b1 x.dir (some (.map x.both))
  let b3 := Function.update b2 x.dir (some (.map x.done))
  have ha1 : Anchored cfg b1 top st.metaId := hl.anchored.edited hmetale hmetapos hl.anchored.apart _
  have ha2 : Anchored cfg b2 top st.metaId := ha1.edited hdirle hdirpos hdirreg _
  have ha3 : Anchored cfg b3 top st.metaId := ha2.edited hdirle hdirpos hdirreg _
  have hmeta1 : b1 st.metaId = some (.blob (metaImage fs m)) := Function.update_self ..
  have hmeta2 : b2 st.metaId = some (.blob (metaImage fs m)) :=
    (Function.update_of_ne h.apart.symm _ _).trans hmeta1
  have hmeta3 : b3 st.metaId = some (.blob (metaImage fs m)) :=
    (Function.update_of_ne h.apart.symm _ _).trans hmeta2
  have hoff1 : ∀ i, i ≠ st.metaId → b1 i = Function.update b x.dir (some (.map x.entries)) i := by
    intro i hi
    rw [← h.map, Function.update_eq_self]
    exact Function.update_of_ne hi _ _
  have hoff2 : ∀ i, i ≠ st.metaId → b2 i = Function.update b x.dir (some (.map x.both)) i := by
    intro i hi
    show Function.update b1 x.dir _ i = _
    by_cases hd : i = x.dir
    . rw [hd, Function.update_self, Function.update_self]
    . rw [Function.update_of_ne hd, Function.update_of_ne hd]
      exact Function.update_of_ne hi _ _
  have hoff3 : ∀ i, i ≠ st.metaId → b3 i = Function.update b x.dir (some (.map x.done)) i := by
    intro i hi
    show Function.update b2 x.dir _ i = _
    by_cases hd : i = x.dir
    . rw [hd, Function.update_self, Function.update_self]
    . rw [Function.update_of_ne hd, Function.update_of_ne hd, hoff2 i hi, Function.update_of_ne hd]
  have hdir1 : b1 x.dir = some (.map x.entries) := (Function.update_of_ne h.apart _ _).trans h.map
  have hinfo : ∀ {b'}, b' st.metaId = some (.blob (metaImage fs m)) →
      ∃ m, MetaIs fs b' st.metaId m ∧ Records m st.dirRoot x :=
    fun hb => ⟨m, ⟨_, false, hb, metaOf_image hsound⟩, hrecords⟩
  have hflight1 : Flight cfg fs b st.dirRoot st.metaId V x b1 top :=
    ⟨ha1, h, hinfo hmeta1, _, .inl rfl, hoff1⟩
  have hflight2 : Flight cfg fs b st.dirRoot st.metaId V x b2 top :=
    ⟨ha2, h, hinfo hmeta2, _, .inr (.inl rfl), hoff2⟩
  have hflight3 : Flight cfg fs b st.dirRoot st.metaId V x b3 top :=
    ⟨ha3, h, hinfo hmeta3, _, .inr (.inr rfl), hoff3⟩
  have hcut : ∀ {b'}, Flight cfg fs b st.dirRoot st.metaId V x b' top → ∀ s : WithRam MapStore Session,
      s.base.items = b' → s.base.top = top → Flight cfg fs b st.dirRoot st.metaId V x s.base.items s.base.top := by
    rintro b' hf s rfl rfl
    exact hf
  have hlast : (x.both.lookup x.name).isSome = true := by
    rw [Move.both, AList.lookup_insert_ne h.ne, h.entry]
    rfl
  -- what the last write leaves
  have hclear := intentClear_sound hsound
  have hoff4 : ∀ i, i ≠ st.metaId → Function.update b3 st.metaId (some (.blob (metaImage fs (intentClear fs m)))) i =
      Function.update b x.dir (some (.map x.done)) i :=
    fun i hi => (Function.update_of_ne hi _ _).trans (hoff3 i hi)
  have hlies := ha3.settled hmeta3 (h.moves hoff3).1 hclear rfl hrecords.dirRoot
  have hwithin := (h.moves hoff4).2.1
  have hstart : Settled cfg fs b st.dirRoot st.metaId V x b top :=
    ⟨V, .inl rfl, hl, Within.refl _ _ _, h.body, .inl ⟨h.body, h.vacant⟩⟩
  unfold renameMove
  rw [Proc.bind_assoc]
  apply says_session.rule_ok
  simp only [hm]
  rw [Proc.bind_assoc]
  apply metaWrite_rule
  rotate_left
  . rintro s (hb | hb) htop
    . exact .inr (by rwa [hb, htop])
    . exact .inl (hcut hflight1 s hb htop)
  rw [Proc.bind_assoc]
  apply setSession_rule
  rw [Proc.bind_assoc]
  apply attempt_rewrites fun H => mapSet_rewrites hdir1 h.key' (by simp [Dirent.image, entLenMask])
  rotate_left
  . rintro s (hb | hb) htop
    . exact .inl (hcut hflight1 s hb htop)
    . exact .inl (hcut hflight2 s hb htop)
  simp only
  rw [Proc.bind_assoc]
  apply below_rewrites fun H => mapDel_rewrites (Function.update_self ..) h.key hlast
  rotate_left
  . rintro s (hb | hb) htop
    . exact .inl (hcut hflight2 s hb htop)
    . exact .inl (hcut hflight3 s hb htop)
  rw [Proc.bind_assoc]
  apply metaWrite_rule
  rotate_left
  . rintro s (hb | hb) htop
    . exact .inl (hcut hflight3 s hb htop)
    . refine .inr ?_
      rw [hb, htop]
      exact h.settled ha3 hmeta3 (.inr hoff3) hclear rfl hrecords.dirRoot
  apply setSession_rule
  apply Spec.ret
  intro s hs
  refine ⟨_, rfl, _, top, false, hlies, hwithin, hs.1, ?_⟩
  rw [hs.2, ← hq]

/-! Recovery -/

theorem entries_insert {es : Entries} {de : Dirent} (name' : List UInt8) (hsound : de.Sound)
    (hes : ∀ n val, es.lookup n = some val → ∃ de : Dirent, de.Sound ∧ val = de.image) (n : List UInt8)
    (val : List UInt8) (h : (es.insert name' de.image).lookup n = some val) :
    ∃ de : Dirent, de.Sound ∧ val = de.image := by
  by_cases hn : n = name'
  . rw [hn, AList.lookup_insert, Option.some.injEq] at h
    exact ⟨de, hsound, h.symm⟩
  . rw [AList.lookup_insert_ne hn] at h
    exact hes n val h

theorem entries_erase {es : Entries} {name : List UInt8}
    (hes : ∀ n val, es.lookup n = some val → ∃ de : Dirent, de.Sound ∧ val = de.image) (n : List UInt8)
    (val : List UInt8) (h : (es.erase name).lookup n = some val) : ∃ de : Dirent, de.Sound ∧ val = de.image := by
  by_cases hn : n = name
  . rw [hn, AList.lookup_erase] at h
    cases h
  . rw [AList.lookup_erase_ne hn] at h
    exact hes n val h

-- A recovery that goes on from a move under way settles it.
def settles (cfg : RegCfg) (fs : FsCfg) (b0 : Items) (V : Files) (x : Move) (top : Nat) (st : Session) :
    Post (WithRam MapStore Session) Errno Unit where
  ok _ s := ∃ b, Settled cfg fs b0 st.dirRoot st.metaId V x b top ∧ On b top 0 True { st with metaV1 := false } s
  err _ _ := False
  cut s := Flight cfg fs b0 st.dirRoot st.metaId V x s.base.items s.base.top ∨
    Settled cfg fs b0 st.dirRoot st.metaId V x s.base.items s.base.top

section

variable {b0 : Items} {x : Move} {m : Meta}

-- The write that ends it.
theorem settle_last (hf : Flight cfg fs b0 st.dirRoot st.metaId V x b top) (hm : m.Sound fs)
    (hr : m.dirRoot = st.dirRoot)
    (hs : (∀ i, i ≠ st.metaId → b i = Function.update b0 x.dir (some (.map x.entries)) i) ∨
      ∀ i, i ≠ st.metaId → b i = Function.update b0 x.dir (some (.map x.done)) i) :
    Spec H (On b top 0 True st) (metaWrite (storeBacking cfg) fs (intentClear fs m))
      (settles cfg fs b0 V x top st) := by
  obtain ⟨m', ⟨data, v1, hdata, -⟩, -⟩ := hf.info
  have hsettled := hf.moving.settled hf.anchored hdata hs (intentClear_sound hm) rfl hr
  rw [← bind_pure (metaWrite (storeBacking cfg) fs (intentClear fs m))]
  apply metaWrite_rule
  . exact Spec.ret fun s hs => ⟨_, hsettled, hs⟩
  . rintro s (hb | hb) htop
    . exact .inl (by rwa [hb, htop])
    . exact .inr (by rwa [hb, htop])

theorem recover_settles (hf : Flight cfg fs b0 st.dirRoot st.metaId V x b top) {data : List UInt8} {v1 : Bool}
    (hdata : b st.metaId = some (.blob data)) (hof : metaOf fs data = .ok (m, v1)) (hrec : Records m st.dirRoot x) :
    Spec H (On b top 0 True st) (renameRecover (storeBacking cfg) fs m) (settles cfg fs b0 V x top st) := by
  have h := hf.moving
  have hm := (metaOf_sound hof).1
  obtain ⟨es, hes, hoff⟩ := hf.stage
  have hdir : b x.dir = some (.map es) := by rw [hoff _ h.apart, Function.update_self]
  have hdirpos := hf.anchored.bound_pos hdir
  have hdirle := hf.anchored.bound_le hdir
  have hdirreg : x.dir ≠ blobDbRootId := fun he => h.built.registry _ (he ▸ h.dir)
  have hold : ∀ n val, x.entries.lookup n = some val → ∃ de : Dirent, de.Sound ∧ val = de.image :=
    fun n val hval => h.built.names h.dir h.map hval
  have hboth := entries_insert x.name' h.written.sound hold
  have hfrom := List.length_pos_iff.mpr h.key.1
  have hto := List.length_pos_iff.mpr h.key'.1
  have hlen := h.length
  have hlen' := h.length'
  have hstate : ¬ (m.fromLen = 0 ∨ fs.nameMax < m.fromLen ∨ m.toLen = 0 ∨ fs.nameMax < m.toLen ∨ m.fromDir = 0 ∨
      m.toDir = 0) := by
    rw [hrec.fromLen, hrec.toLen, hrec.fromDir, hrec.toDir]
    omega
  unfold renameRecover
  rw [if_neg hstate, hrec.toDir, hrec.toName]
  rcases hes with rfl | rfl | rfl
  . -- nothing was moved
    have hget : Says (On b top 0 True st) (direntGet (storeBacking cfg) x.dir x.name') (entryOf x.entries x.name') :=
      says_direntGet hdir h.key' (hold x.name')
    rw [entryOf, h.free] at hget
    apply hget.attempt.rule_ok
    exact settle_last hf hm hrec.dirRoot (.inl hoff)
  . have hget : Says (On b top 0 True st) (direntGet (storeBacking cfg) x.dir x.name') (entryOf x.both x.name') :=
      says_direntGet hdir h.key' (hboth x.name')
    have hgetold : Says (On b top 0 True st) (direntGet (storeBacking cfg) x.dir x.name) (entryOf x.both x.name) :=
      says_direntGet hdir h.key (hboth x.name)
    have hlookup : x.both.lookup x.name = some x.dirent.image := by
      rw [Move.both, AList.lookup_insert_ne h.ne, h.entry]
    rw [entryOf, Move.both, AList.lookup_insert] at hget
    rw [entryOf, hlookup] at hgetold
    simp only [direntOf_image h.written.sound] at hget hgetold
    -- the old name goes
    have hne : x.dir ≠ st.metaId := h.apart
    have hmeta : Function.update b x.dir (some (.map x.done)) st.metaId = b st.metaId :=
      Function.update_of_ne hne.symm _ _
    have hoff' : ∀ i, i ≠ st.metaId → Function.update b x.dir (some (.map x.done)) i =
        Function.update b0 x.dir (some (.map x.done)) i := by
      intro i hi
      by_cases hd : i = x.dir
      . rw [hd, Function.update_self, Function.update_self]
      . rw [Function.update_of_ne hd, Function.update_of_ne hd, hoff i hi, Function.update_of_ne hd]
    have hf' : Flight cfg fs b0 st.dirRoot st.metaId V x (Function.update b x.dir (some (.map x.done))) top :=
      ⟨hf.anchored.edited hdirle hdirpos hdirreg _, h, ⟨m, ⟨data, v1, hmeta.trans hdata, hof⟩, hrec⟩, _,
        .inr (.inr rfl), hoff'⟩
    apply hget.attempt.rule_ok
    simp only [hrec.body, Proc.when, decide_true, if_true]
    unfold rollForward
    rw [hrec.fromDir, hrec.fromName, hrec.body, Proc.bind_assoc]
    apply hgetold.attempt.rule_ok
    simp only [Proc.when, decide_true, if_true]
    apply below_rewrites fun H => mapDel_rewrites hdir h.key (by rw [hlookup]; rfl)
    . exact settle_last hf' hm hrec.dirRoot (.inr hoff')
    . rintro s (hb | hb) htop
      . exact .inl (by rwa [hb, htop])
      . exact .inl (by rwa [hb, htop])
  . have hget : Says (On b top 0 True st) (direntGet (storeBacking cfg) x.dir x.name') (entryOf x.done x.name') :=
      says_direntGet hdir h.key' (entries_erase hboth x.name')
    have hgetold : Says (On b top 0 True st) (direntGet (storeBacking cfg) x.dir x.name) (entryOf x.done x.name) :=
      says_direntGet hdir h.key (entries_erase hboth x.name)
    have hlookup : x.done.lookup x.name' = some x.dirent.image := by
      rw [Move.done, AList.lookup_erase_ne h.ne.symm, Move.both, AList.lookup_insert]
    rw [entryOf, hlookup] at hget
    rw [entryOf, Move.done, AList.lookup_erase] at hgetold
    simp only [direntOf_image h.written.sound] at hget
    apply hget.attempt.rule_ok
    simp only [hrec.body, Proc.when, decide_true, if_true]
    unfold rollForward
    rw [hrec.fromDir, hrec.fromName, Proc.bind_assoc]
    apply hgetold.attempt.rule_ok
    exact settle_last hf hm hrec.dirRoot (.inr hoff)

end

-- What a rename from `src` to `dst` answers and leaves.
def renames (cfg : RegCfg) (fs : FsCfg) (st : Session) (V : Files) (b : Items) (src dst : Option CStr) :
    Post (WithRam MapStore Session) Errno FsReply :=
  { answering cfg fs st V b (given src ++ given dst) (meansRename fs st.mounted V src dst) with
    cut := fun s => ∃ x : Move, given src = [x.old] ∧ given dst = [x.new] ∧
      (Flight cfg fs b st.dirRoot st.metaId V x s.base.items s.base.top ∨
        Settled cfg fs b st.dirRoot st.metaId V x s.base.items s.base.top) }

theorem rename_answers (h : Lies cfg fs b top st.metaId st.dirRoot V) (hq : st.intentPending = false)
    (src dst : Option CStr) :
    Spec H (On b top 0 True st) (blobfsRename (storeBacking cfg) fs src dst >>= fun _ => pure .unit)
      (renames cfg fs st V b src dst) := by
  have herr : ∀ {e}, meansRename fs st.mounted V src dst = .error e → ∀ s, On b top 0 True st s →
      (renames cfg fs st V b src dst).err e s :=
    fun he => answering_err h (Within.refl _ _ _) (.inl he)
  unfold blobfsRename
  rw [Proc.bind_assoc]
  apply settle_rule hq
  rw [Proc.bind_assoc]
  apply resolve_rule fun _ => h.built
  . intro e he
    apply herr
    rw [meansRename, he]
  . intro x w hx hname s hs _
    apply herr _ s hs
    rw [meansRename, hx]
    exact if_pos hname
  intro x d es de item hx hname hentry hobj
  simp only
  rw [Proc.bind_assoc]
  apply walk_rule fun _ => h.built
  . intro e he
    apply herr
    rw [meansRename, hx]
    simp only [if_neg hname, he]
  intro y d' es' hy hd' hb' hlen'
  have hmeans : meansRename fs st.mounted V src dst =
      if y.name = [] then .error Errno.EBUSY
      else if y.wantDir ∧ (nodeOf item).obj ≠ .dir then .error Errno.ENOTDIR
      else if y.dir ≠ x.dir then .error Errno.EXDEV
      else if V y.path ≠ none then .error Errno.EEXIST
      else .ok (V.moved x.dir x.name y.name, .unit) := by
    rw [meansRename, hx]
    simp only [if_neg hname, hy]
  have hdirs : d' = d ↔ y.dir = x.dir := by
    constructor
    . rintro rfl
      exact h.built.unshared _ _ _ hd' hentry.dir
    . intro he
      rw [he, hentry.dir] at hd'
      exact (Option.some.inj hd').symm
  by_cases hroot : y.name = []
  . simp only [if_pos hroot]
    exact fun s hs _ => herr (by rw [hmeans, if_pos hroot]) s hs
  rw [if_neg hroot] at hmeans
  simp only [if_neg hroot]
  by_cases hwant : y.wantDir = true ∧ de.type ≠ typeDir
  . rw [if_pos hwant]
    refine fun s hs _ => herr ?_ s hs
    rw [hmeans, if_pos ⟨hwant.1, fun ho => hwant.2 (hentry.isDir.mp ho)⟩]
  rw [if_neg hwant]
  rw [if_neg fun ho => hwant ⟨ho.1, fun ht => ho.2 (hentry.isDir.mpr ht)⟩] at hmeans
  by_cases hdir : d' = d
  rotate_left
  . rw [if_pos hdir]
    refine fun s hs _ => herr ?_ s hs
    rw [hmeans, if_pos fun he => hdir (hdirs.mpr he)]
  rw [if_neg (not_not.mpr hdir)]
  rw [if_neg (not_not.mpr (hdirs.mp hdir))] at hmeans
  subst hdir
  have hsame : y.dir = x.dir := hdirs.mp rfl
  rw [hentry.map] at hb'
  cases hb'
  have hkey := keyed fs hroot hlen'
  have hview := h.built.view_entry hd' hentry.map y.name
  rw [Proc.bind_assoc]
  apply (says_direntGet hentry.map hkey fun _ => h.built.names hd' hentry.map).attempt.rule_ok
  unfold entryOf
  cases hval : es.lookup y.name with
  | some val =>
    rw [hval] at hview
    obtain ⟨de', item', -, -, hobj'⟩ := hview
    have hobj' : V y.path = some (nodeOf item').obj := hobj'
    refine fun s hs _ => herr ?_ s hs
    rw [hmeans, if_pos (by rw [hobj']; simp)]
  | none =>
    rw [hval] at hview
    have hview : V y.path = none := hview
    rw [if_neg (by rw [hview]; simp)] at hmeans
    have hmoving : Moving fs b st.dirRoot st.metaId V ⟨x.dir, d', es, x.name, y.name, de⟩ :=
      ⟨h.built, hentry.dir, hentry.map, hentry.entry, hentry.written, hval, hentry.key, hkey, hentry.length, hlen'⟩
    have hgo := @renameMove_moves cfg fs H b top st V ⟨x.dir, d', es, x.name, y.name, de⟩ h hq hmoving
      x.wantDir y.wantDir
    have hsrc : given src = [x.dir ++ [x.name]] := place_given (lookup_place hx) hname
    have hdst : given dst = [x.dir ++ [y.name]] := by rw [place_given hy hroot, Place.path, hsame]
    refine hgo.conseq (fun _ hs => hs) ?_ ?_ ?_
    . rintro rep s ⟨V', hr, hrest⟩
      cases hr
      refine ⟨_, hmeans, ?_⟩
      rw [hsrc, hdst]
      exact hrest
    . rintro e s ⟨hr, b', t, v1, hlies, hw, hs⟩
      refine ⟨?_, b', t, v1, hlies, ?_, hs⟩
      . rcases hr with hr | hr
        . cases hr
        . exact .inr hr
      . rw [hsrc, hdst]
        exact hw
    . exact fun s hs => ⟨⟨x.dir, d', es, x.name, y.name, de⟩, hsrc, hdst, hs⟩

end

end KeyValueDb.Blobfs
