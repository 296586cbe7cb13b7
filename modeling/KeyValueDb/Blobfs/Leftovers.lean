import KeyValueDb.Containers.KvhashFaults
import KeyValueDb.Blobfs.Resolution

/-!
What create and mkdir leave behind when they fail: what each write has left that reports an error, and
what is there after the clean-up. The store is told in advance which write fails.
-/

namespace KeyValueDb.Blobfs

open Containers Kvdb

variable {cfg : KvCfg} {g : Shape} {tbl : Table} {b : Blobs} {top root n : Nat} {lim : Nat × Nat}
  {key val : List UInt8} {ts : List Turn} {fs : FsCfg} {wh : Where} {maxEntry : Nat}

/-! An empty directory -/

def emptyDir (magic : Nat) : List UInt8 := dirImage magic kvhashVersion 1 defaultBuckets fun _ => 0

-- A delete, or the write that begins to take a map apart.
def Edit.CleansUp (e : Edit) : Prop := ∀ d ∈ e.data, fieldAt d 0 4 = kvhashDirDying

-- What cleans up succeeds.
def Event.Cleans : Event → Prop
  | .edit e => Edit.CleansUp e → e.turn = .done
  | .readError _ _ => True

instance (e : Edit) : Decidable (Edit.CleansUp e) := inferInstanceAs (Decidable (∀ d ∈ e.data, _))

instance (ev : Event) : Decidable (Event.Cleans ev) :=
  match ev with
  | .edit e => inferInstanceAs (Decidable (Edit.CleansUp e → e.turn = .done))
  | .readError _ _ => inferInstanceAs (Decidable True)

-- The clean-up succeeds, and what fails does not answer as if it had found nothing.
def cleaning : Hypothesis (World KvRam) where
  holds w := ∀ ev ∈ w.history, ev.Telling ∧ Event.Cleans ev
  anti h hh ev hev := hh ev (List.IsSuffix.subset h hev)

instance (w : World KvRam) : Decidable (cleaning.holds w) :=
  inferInstanceAs (Decidable (∀ ev ∈ w.history, ev.Telling ∧ Event.Cleans ev))

theorem cleaning_releasing (w : World KvRam) (h : cleaning.holds w) : releasing.holds w := by
  intro ev hev
  refine ⟨(h ev hev).1, ?_⟩
  rintro e rfl hnone
  refine (h _ hev).2 fun d hd => ?_
  rw [hnone] at hd
  cases hd

theorem cleaning_edit {w : World KvRam} {id : Nat} {data : Option (List UInt8)} {t : Turn}
    (h : cleaning.holds (w.edit id data t)) (hdata : Edit.CleansUp ⟨id, data, t, w.blobs⟩) : t = .done :=
  (h (.edit ⟨id, data, t, w.blobs⟩) (by simp [World.edit])).2 hdata

theorem emptyDir_ok {magic : Nat} (hm : magic = kvhashDirMagic ∨ magic = kvhashDirDying)
    (hfit : dirLen defaultBuckets ≤ cfg.maxPayload) :
    DirOk cfg.toStoreCfg magic kvhashVersion 1 defaultBuckets :=
  ⟨hm, by decide, le_rfl, .inl rfl, by decide, hfit, cfg.payload_le⟩

theorem emptyDir_dying : Edit.CleansUp ⟨root, some (emptyDir kvhashDirDying), t, b⟩ := by
  intro d hd
  cases hd
  rw [emptyDir, dirImage]
  exact dirHead_magic (by decide)

-- A load that meets no failure.
theorem dirLoadRaw_told {s : World KvRam} {data : List UInt8} (hr : s.reads = [])
    (hroot : s.blobs root = some data) (hlen : data.length ≤ cfg.maxPayload) :
    dirLoadRaw cfg root s =
      (.of (dirCheck cfg.toStoreCfg (overwrite s.ram.dirBuf 0 data) data.length),
        s.setRam { s.ram with dirBuf := overwrite s.ram.dirBuf 0 data }) := by
  have hget : (blobDbGet root cfg.maxPayload : K _) s = (.ok data, s) := by
    refine Prod.ext ?_ (Steady.readBlob root _ s hr)
    rw [blobDbGet, readBlob]
    simp only [hr, List.headD_nil, hroot]
    rw [if_pos hlen]
  rw [dirLoadRaw, getDir, Proc.bind_assoc, Proc.bind_ok hget]
  exact Proc.ofExcept_run _ _

theorem dirLoadRaw_run {s : World KvRam} {magic : Nat}
    (hok : DirOk cfg.toStoreCfg magic kvhashVersion 1 defaultBuckets) (hr : s.reads = [])
    (hroot : s.blobs root = some (emptyDir magic)) :
    dirLoadRaw cfg root s = (.ok ⟨defaultBuckets, 1, magic = kvhashDirDying⟩,
      s.setRam { s.ram with dirBuf := overwrite s.ram.dirBuf 0 (emptyDir magic) }) := by
  have hlen : (emptyDir magic).length = dirLen defaultBuckets := dirImage_length _ _ _ _ _
  have hfits := hok.fits
  have hcheck : dirCheck cfg.toStoreCfg (overwrite s.ram.dirBuf 0 (emptyDir magic))
      (emptyDir magic).length = .ok ⟨defaultBuckets, 1, magic = kvhashDirDying⟩ := by
    obtain ⟨rest, hrest⟩ := prefix_overwrite (emptyDir magic) s.ram.dirBuf
    rw [← hrest, hlen, emptyDir, hok.check]
  rw [dirLoadRaw_told hr hroot (by omega), hcheck]
  rfl

-- The blobs are `b` and an empty directory, of which `I` depends on nothing.
structure FreshDir (root : Nat) (magic : Nat) (b : Blobs) (I : World KvRam → Prop) (dir : List UInt8)
    (s : World KvRam) : Prop where
  blobs : s.blobs = Function.update b root (some (emptyDir magic))
  pos : 0 < root
  issued : root ≤ s.top
  reads : s.reads = []
  inv : I s
  dir : dir <+: s.ram.dirBuf

section Destroy

variable {I : World KvRam → Prop} (hedit : ∀ s id data, I s → s.nextTurn = .done → I (s.edit id data .done))
  (hram : ∀ s r, I s → I (s.setRam r)) (hfit : dirLen defaultBuckets ≤ cfg.maxPayload)
  (hobject : dirLen defaultBuckets ≤ cfg.maxObject)

include hram in
theorem FreshDir.setRam {magic : Nat} {dir dir' : List UInt8} {s : World KvRam}
    (h : FreshDir root magic b I dir s) {r : KvRam} (hdir : dir' <+: r.dirBuf) :
    FreshDir root magic b I dir' (s.setRam r) :=
  ⟨h.blobs, h.pos, h.issued, h.reads, hram s r h.inv, hdir⟩

include hedit in
theorem FreshDir.edit {magic magic' : Nat} {dir : List UInt8} {s : World KvRam}
    (h : FreshDir root magic b I dir s) (hdone : s.nextTurn = .done) :
    FreshDir root magic' b I dir (s.edit root (some (emptyDir magic')) .done) := by
  refine ⟨?_, h.pos, h.issued, h.reads, hedit s root _ h.inv hdone, h.dir⟩
  rw [s.edit_blobs root _ rfl, h.blobs, Function.update_idem]

include hram hfit in
theorem freshDir_load {magic : Nat} (hm : magic = kvhashDirMagic ∨ magic = kvhashDirDying) {dir : List UInt8} :
    Spec cleaning (FreshDir root magic b I dir) (dirLoadRaw cfg root)
      ⟨fun d s => d = ⟨defaultBuckets, 1, magic = kvhashDirDying⟩ ∧ FreshDir root magic b I (emptyDir magic) s,
        fun _ _ => False, fun _ => False⟩ := by
  intro s h _
  have hroot : s.blobs root = some (emptyDir magic) := by rw [h.blobs, Function.update_self]
  rw [dirLoadRaw_run (emptyDir_ok hm hfit) h.reads hroot]
  exact ⟨rfl, h.setRam hram (prefix_overwrite _ _)⟩

include hedit hram hobject in
theorem freshDir_stamp :
    Spec cleaning (FreshDir root kvhashDirMagic b I (emptyDir kvhashDirMagic))
      (stampDying cfg root defaultBuckets)
      (failing (fun _ => FreshDir root kvhashDirDying b I (emptyDir kvhashDirDying)) fun _ => False) := by
  intro s h
  obtain ⟨rest, hrest⟩ := h.dir
  have hover : overwrite s.ram.dirBuf 0 (leBytes kvhashDirDying 4) = emptyDir kvhashDirDying ++ rest := by
    rw [← hrest]
    exact dirImage_stamp _ _ _ _ _
  have hlen : (emptyDir kvhashDirDying).length = dirLen defaultBuckets := dirImage_length _ _ _ _ _
  have hrun : stampDying cfg root defaultBuckets s =
      kvUpdate cfg root ((overwrite s.ram.dirBuf 0 (leBytes kvhashDirDying 4)).take (dirLen defaultBuckets))
        (s.setRam { s.ram with dirBuf := overwrite s.ram.dirBuf 0 (leBytes kvhashDirDying 4) }) := rfl
  rw [hrun, hover, List.take_left' hlen, kvUpdate]
  have h1 : FreshDir root kvhashDirMagic b I (emptyDir kvhashDirDying)
      (s.setRam { s.ram with dirBuf := emptyDir kvhashDirDying ++ rest }) :=
    h.setRam hram (List.prefix_append _ _)
  generalize s.setRam { s.ram with dirBuf := emptyDir kvhashDirDying ++ rest } = s1 at h1 ⊢
  have hpos := h1.pos
  have hissued := h1.issued
  rcases blobDbUpdate_met cfg.toStoreCfg s1 root (emptyDir kvhashDirDying)
    with ⟨hbad, _⟩ | ⟨_, ⟨_, hr⟩ | ⟨_, hr⟩⟩
  . omega
  . rw [hr]
    intro hh
    have hdone := cleaning_edit hh emptyDir_dying
    rw [hdone]
    exact h1.edit hedit hdone
  . rw [hr]
    intro hh
    have hdone := cleaning_edit hh emptyDir_dying
    cases ht : s1.nextTurn with
    | done =>
      rw [ht] at hdone
      cases hdone
    | error e landed =>
      rw [ht] at hdone
      cases hdone
    | cut landed =>
      rw [ht] at hdone
      cases hdone

-- There is no bucket to release.
theorem freshDir_buckets {k i : Nat} (hk : i + k ≤ defaultBuckets) :
    Spec cleaning (FreshDir root kvhashDirDying b I (emptyDir kvhashDirDying)) (releaseBuckets cfg k i none)
      (failing (fun err s => err = none ∧ FreshDir root kvhashDirDying b I (emptyDir kvhashDirDying) s)
        fun _ => False) := by
  induction k generalizing i with
  | zero => exact Spec.ret fun s h => ⟨rfl, h⟩
  | succ k ih =>
    rw [releaseBuckets]
    refine Spec.razeDir (fun s h => h.dir) ?_
    rintro _ ⟨rest, rfl⟩
    rw [emptyDir, dirChild_image (by omega) (by decide), if_pos rfl]
    exact ih (by omega)

include hedit hram hfit hobject in
theorem freshDir_destroy (hnone : b root = none) {dir : List UInt8} :
    Spec cleaning (FreshDir root kvhashDirMagic b I dir) (kvhashDestroy cfg root)
      (failing (fun _ s => s.blobs = b ∧ I s) fun _ => False) := by
  rw [kvhashDestroy]
  refine (freshDir_load hram hfit (.inl rfl)).bind (fun d => Spec.fact ?_) (fun _ _ h => h) fun _ _ => trivial
  rintro rfl
  refine Spec.bind (freshDir_stamp hedit hram hobject) (fun _ => ?_) (fun _ _ h => h) fun _ h => h
  rw [if_pos rfl]
  refine (freshDir_buckets (Nat.le_refl _)).bind (fun err => Spec.fact ?_) (fun _ _ h => h) fun _ h => h
  rintro rfl
  intro s h
  have hpos := h.pos
  rw [kvDelete]
  rcases blobDbDelete_met s root with ⟨hgone, _⟩ | ⟨_, hr⟩
  . rw [h.blobs, Function.update_self] at hgone
    cases hgone
  . rw [hr]
    intro hh
    have hdone := cleaning_edit hh (by rintro _ ⟨⟩)
    rw [hdone]
    refine ⟨?_, hedit s root none h.inv hdone⟩
    rw [s.edit_blobs root none rfl, h.blobs, Function.update_idem, ← hnone, Function.update_eq_self]

end Destroy

/-! What the clients of the store keep -/

-- No read fails, and the ids go on from `n`.
structure Onward (n : Nat) (s : World KvRam) : Prop where
  reads : s.reads = []
  top_le : n ≤ s.top
  top_lt : s.top < 2 ^ 64

theorem onward_calls (scfg : StoreCfg) (n : Nat) : Calls scfg (Onward n) where
  done s h := ⟨by rw [World.readDone, h.reads, List.tail_nil], h.top_le, h.top_lt⟩
  failed s id e he h := by
    rw [h.reads] at he
    cases he
  ram s r h := ⟨h.reads, h.top_le, h.top_lt⟩
  update id payload := by
    intro s h
    rcases blobDbUpdate_met scfg s id payload with ⟨_, hr⟩ | ⟨_, ⟨_, hr⟩ | ⟨_, hr⟩⟩
    all_goals
      rw [hr]
      exact ⟨h.reads, h.top_le, h.top_lt⟩
  delete id := by
    intro s h
    rcases blobDbDelete_met s id with ⟨_, hr⟩ | ⟨_, hr⟩
    all_goals
      rw [hr]
      exact ⟨h.reads, h.top_le, h.top_lt⟩
  alloc := by
    intro s h
    have hle := h.top_le
    simp only [blobDbAllocId]
    split
    . exact ⟨h.reads, h.top_le, h.top_lt⟩
    . split
      . next gap _ hlt =>
        have htop : n ≤ s.top + 1 + gap := by omega
        exact ⟨h.reads, htop, hlt⟩
      . exact ⟨h.reads, h.top_le, h.top_lt⟩

theorem Onward.mono {m : Nat} {s : World KvRam} (h : Onward n s) (hm : m ≤ n) : Onward m s :=
  ⟨h.reads, hm.trans h.top_le, h.top_lt⟩

/-! A new object -/

-- Writes fail without an effect, and power is not lost.
def Calmly (ts : List Turn) : Prop := ∀ t ∈ ts, t = .done ∨ ∃ e, t = .error e false

theorem Calmly.head (h : Calmly ts) (k : Nat) {e : Errno} : (ts.drop k).headD .done ≠ .error e true := by
  intro he
  cases hd : ts.drop k with
  | nil =>
    rw [hd] at he
    cases he
  | cons t rest =>
    have hmem : t ∈ ts := List.mem_of_mem_drop (hd ▸ List.mem_cons_self : t ∈ ts.drop k)
    rw [hd] at he
    obtain rfl : t = .error e true := he
    rcases h _ hmem with ht | ⟨e', ht⟩ <;> cases ht

-- Turns that are all used up were those of writes that succeeded.
theorem undone_met {k m : Nat} (h : Undone (ts.drop k) []) (hk : k ≤ m) {e : Errno} {landed : Bool} :
    (ts.drop m).headD .done ≠ .error e landed := by
  obtain ⟨d, hd, hdone⟩ := h
  have hlen : (ts.drop k).length ≤ d := List.drop_eq_nil_iff.mp hd.symm
  rw [List.take_of_length_le hlen] at hdone
  intro he
  cases hm : ts.drop m with
  | nil =>
    rw [hm] at he
    cases he
  | cons t rest =>
    have hmem : t ∈ ts.drop k := by
      have : t ∈ (ts.drop k).drop (m - k) := by
        rw [List.drop_drop, Nat.add_sub_cancel' hk, hm]
        exact List.mem_cons_self
      exact List.mem_of_mem_drop this
    rw [hm] at he
    obtain rfl : t = .error e landed := he
    cases hdone _ hmem

-- Of what a call has bound, something is left if and only if `leak`. If it is not left because of a
-- write that fails, this write has failed.
def Leaves (b : Blobs) (top : Nat) (leak : Prop) (s : World KvRam) : Prop :=
  leak ∧ (∃ id, top < id ∧ s.blobs id ≠ none) ∧ (∀ id ≤ top, s.blobs id = b id) ∨
    (s.turns = [] → ¬leak) ∧ s.blobs = b

theorem stored_bound (h : Stored cfg g tbl b top) {id : Nat} (hid : top < id) (hlt : id < 2 ^ 64)
    (data : Option (List UInt8)) : Stored cfg g tbl (Function.update b id data) id := by
  refine h.congr (fun r i ho => Function.update_of_ne ?_ _ _) hid.le hlt
  have := h.ids r i ho
  omega

theorem bound_free (hfree : ∀ id, top < id → b id = none) {id : Nat} (hid : top < id)
    (data : Option (List UInt8)) : ∀ i, id < i → Function.update b id data i = none := by
  intro i hi
  rw [Function.update_of_ne (by omega)]
  exact hfree i (by omega)

-- Only the length of the value matters.
theorem setPlan_congr {val val' : List UInt8} (h : val.length = val'.length) :
    tbl.setPlan cfg g lim key val = tbl.setPlan cfg g lim key val' := by
  have hp : g.placement lim key val = g.placement lim key val' := by
    rw [Shape.placement, Shape.placement, h]
  have hin : ∀ q : Pair, q.InPlace (g.placement lim key val') val ↔
      q.InPlace (g.placement lim key val') val' := by
    intro q
    rw [Pair.InPlace, Pair.InPlace, h]
  simp only [Table.setPlan, hp, hin]

theorem newDirent_length (type id : Nat) : (newDirent type id).image.length = direntLen := by
  simp [Dirent.image, direntLen]

-- What is left of a set that fails, if no write that failed has taken effect.
theorem setFailed_left {m' : KvMap} {c : Nat × Nat} {plan : SetPlan} {s : World KvRam} (hts : Calmly ts)
    (h : SetFailed cfg g tbl b top lim m' c plan ts s) :
    (∃ k, (k ≤ plan.commit ∨ plan.bucket ≠ 0) ∧ s.blobs = b ∧ Undone (ts.drop k) s.turns) ∨
      (plan.bucket = 0 ∧ ∃ e, (ts.drop plan.commit).headD .done = .error e false) ∧
        ∃ id data, top < id ∧ s.blobs = Function.update b id (some data) := by
  cases h with
  | back hk hb _ ht => exact .inl ⟨_, hk, hb, ht⟩
  | unpublished h0 turn hid hb _ => exact .inr ⟨⟨h0, _, turn⟩, _, _, hid, hb⟩
  | early _ turn _ => exact absurd turn (hts.head _)
  | whole _ turn _ => exact absurd turn (hts.head _)
  | broken _ turn _ => exact absurd turn (hts.head _)

-- What create does once there is a free name.
def createAt (cfg : KvCfg) (wh : Where) : K Unit := do
  let bodyId ← blobDbAllocId
  if bodyId = 0 then Proc.fail Errno.EIO
  else do
    kvUpdate cfg bodyId []
    kvhashSet cfg wh.dir wh.name (newDirent typeFile bodyId).image

-- An empty body always has room.
theorem bindBody_spec {H : Hypothesis (World KvRam)} (hts : Calmly ts) {id : Nat} (hid : top < id) :
    Spec H (Faces cfg.toStoreCfg b id lim [] [] ts) (kvUpdate cfg id [])
      (failing (fun _ s => (∀ e, ts.headD .done ≠ .error e false) ∧
          Faces cfg.toStoreCfg (Function.update b id (some [])) id lim [] [] ts.tail s)
        fun s => (∃ e, ts.headD .done = .error e false) ∧ s.blobs = b) := by
  intro s hs _
  have htop := hs.top
  have hused := hs.fit.tallied.1
  have hturn : s.nextTurn = ts.headD .done := by rw [World.nextTurn, hs.turns]
  rcases blobDbUpdate_met cfg.toStoreCfg s id [] with ⟨hbad, _⟩ | ⟨⟨_, _, hlen⟩, ⟨hfits, hr⟩ | ⟨hfull, _⟩⟩
  . simp only [List.length_nil] at hbad
    omega
  . rw [kvUpdate, hr, hturn]
    cases ht : ts.headD .done with
    | done => exact ⟨by rintro _ ⟨⟩, hs.edited rfl hlen hfits⟩
    | error e landed =>
      cases landed with
      | false =>
        refine ⟨⟨e, rfl⟩, ?_⟩
        rw [← hs.blobs]
        rfl
      | true => exact absurd ht (hts.head 0)
    | cut landed => trivial
  . simp only [List.length_nil] at hfull
    omega

theorem createAt_spec (h : Stored cfg g tbl b top) (hfree : ∀ id, top < id → b id = none) (hts : Calmly ts)
    (hroot : g.root = wh.dir) (gaps : List Nat) :
    Spec releasing (fun s => s.allocs = gaps.map some ∧ Faces cfg.toStoreCfg b top lim [] [] ts s)
      (createAt cfg wh)
      (failing (fun _ _ => True) (Leaves b top
        (top + 1 + gaps.headD 0 < 2 ^ 64 ∧ ∀ e, ts.headD .done ≠ .error e false))) := by
  have halloc : Spec releasing (fun s => s.allocs = gaps.map some ∧ Faces cfg.toStoreCfg b top lim [] [] ts s)
      blobDbAllocId
      (failing (fun id s => (¬ top + 1 + gaps.headD 0 < 2 ^ 64 ∧ s.blobs = b) ∧ id = 0 ∨
        (top + 1 + gaps.headD 0 < 2 ^ 64 ∧ id = top + 1 + gaps.headD 0) ∧
          Faces cfg.toStoreCfg b id lim [] [] ts s) fun _ => False) := by
    rintro s ⟨ha, hs⟩ _
    have hhead : s.allocs.headD (some 0) = some (gaps.headD 0) := by
      rw [ha]
      cases gaps <;> rfl
    simp only [blobDbAllocId, hhead]
    split
    . next hlt =>
      rw [hs.top] at hlt
      refine .inr ⟨⟨hlt, by rw [hs.top]⟩, ⟨hs.blobs, rfl, hs.lim, hs.dir, hs.bkt⟩, hs.turns, hs.unlanded,
        ⟨hs.fit.tallied, hs.fit.object⟩⟩
    . next hlt =>
      rw [hs.top] at hlt
      exact .inl ⟨⟨hlt, hs.blobs⟩, rfl⟩
  rw [createAt]
  refine halloc.bind (fun id => ?_) (fun _ _ hf => hf.elim) fun _ hs => hs
  refine Spec.ite (fun h0 => Spec.fail fun s hs => ?_) fun h0 => ?_
  . rcases hs with ⟨⟨hno, hb⟩, _⟩ | ⟨⟨_, hid⟩, _⟩
    . exact .inr ⟨fun _ hleak => hno hleak.1, hb⟩
    . omega
  refine Spec.pre (Spec.fact ?_) fun s hs => hs.resolve_left fun hn => h0 hn.2
  rintro ⟨hlt, hid⟩
  have hid' : top < id := by omega
  refine (bindBody_spec hts hid').bind (fun _ => Spec.fact fun hno => ?_) ?_ fun _ hs => hs
  rotate_left
  . rintro e s ⟨⟨e', he⟩, hb⟩
    exact .inr ⟨fun _ hleak => hleak.2 e' he, hb⟩
  have hbody := stored_bound h hid' (by omega) (some [])
  have hset := (@kvhashSet_faces _ _ _ _ _ lim [] [] ts.tail) hbody
    (bound_free hfree hid' (some [])) wh.name (newDirent typeFile id).image
  rw [hroot] at hset
  refine hset.conseq (fun _ hs => hs) (fun _ _ _ => trivial) ?_ fun _ hs => hs
  rintro e s hfail
  have htail : Calmly ts.tail := fun t ht => hts t (List.mem_of_mem_tail ht)
  refine .inl ⟨⟨hlt, hno⟩, ?_⟩
  rcases setFailed_left htail hfail with ⟨_, _, hb, _⟩ | ⟨_, id2, data, hid2, hb⟩
  . rw [hb]
    refine ⟨⟨id, hid', ?_⟩, fun i hi => Function.update_of_ne (by omega) _ _⟩
    rw [Function.update_self]
    exact nofun
  . rw [hb]
    refine ⟨⟨id2, by omega, ?_⟩, fun i hi => ?_⟩
    . rw [Function.update_self]
      exact nofun
    . rw [Function.update_of_ne (by omega), Function.update_of_ne (by omega)]

-- What mkdir does once there is a free name, the meta is of the version of today, and there is an id.
def mkdirAs (cfg : KvCfg) (maxEntry : Nat) (wh : Where) (dirId : Nat) : K Unit := do
  kvhashCreate cfg dirId (some ⟨0, 0, maxEntry⟩)
  match ← Proc.attempt (kvhashSet cfg wh.dir wh.name (newDirent typeDir dirId).image) with
  | .ok _ => pure ()
  | .error e => do
    let _ ← Proc.attempt (kvhashDestroy cfg dirId)
    Proc.fail e

def mkdirAt (cfg : KvCfg) (maxEntry : Nat) (wh : Where) : K Unit := do
  let dirId ← blobDbAllocId
  if dirId = 0 then Proc.fail Errno.EIO else mkdirAs cfg maxEntry wh dirId

-- A directory is made in one write.
theorem dirCreate_spec {H : Hypothesis (World KvRam)} (hts : Calmly ts) (maxEntry : Nat) :
    Spec H (Faces cfg.toStoreCfg b top lim [] [] ts) (kvhashCreate cfg root (some ⟨0, 0, maxEntry⟩))
      (failing (fun _ => Faces cfg.toStoreCfg (Function.update b root (some (emptyDir kvhashDirMagic))) top lim
          [] [] ts.tail)
        fun s => ∃ k ≤ 1, Faces cfg.toStoreCfg b top lim [] [] (ts.drop k) s) := by
  have hstay : ∀ s, Faces cfg.toStoreCfg b top lim [] [] ts s →
      ∃ k ≤ 1, Faces cfg.toStoreCfg b top lim [] [] (ts.drop k) s := fun s hs => ⟨0, by omega, hs⟩
  rw [kvhashCreate]
  simp only [deriveGeometry, Option.map_some, Option.getD_some]
  split
  . next hgeo =>
    split at hgeo <;> cases hgeo
  . exact Spec.fail hstay
  . next geo hgeo =>
    obtain rfl : (⟨1, defaultBuckets, 0⟩ : Geometry) = geo := by
      split at hgeo
      . cases hgeo
      . exact Except.ok.inj (Option.some.inj hgeo)
    rw [if_pos rfl]
    refine Faces.setDirBuf (emptyDir kvhashDirMagic) (fun buf _ => ?_) (Faces.dirBuf ?_)
    . rw [dirFormat_eq]
      exact List.prefix_append _ _
    . rintro _ ⟨rest, rfl⟩
      have hlen : (emptyDir kvhashDirMagic).length = dirLen defaultBuckets := dirImage_length _ _ _ _ _
      rw [List.take_left' hlen]
      refine (kvUpdate_faces _ _).conseq (fun _ hs => hs) (fun _ s hs => hs.idle) ?_ fun _ hs => hs
      rintro e s (⟨k, hk, hs, _⟩ | ⟨⟨e', he⟩, _⟩)
      . exact ⟨k, hk, hs.idle⟩
      . exact absurd he (hts.head 0)

-- The clean-up deletes the directory again, whatever else is there by now.
theorem undoDir_spec {c : Blobs} {id : Nat} (hfit : dirLen defaultBuckets ≤ cfg.maxPayload)
    (hobject : dirLen defaultBuckets ≤ cfg.maxObject) (hpos : 0 < id) (hnone : c id = none) (e : Errno) {k : Nat} :
    Spec cleaning (fun s => s.blobs = Function.update c id (some (emptyDir kvhashDirMagic)) ∧ Onward id s ∧
        Undone (ts.drop k) s.turns)
      (Proc.attempt (kvhashDestroy cfg id) >>= fun _ => Proc.fail e)
      (failing (fun (_ : Unit) _ => False) fun s => s.blobs = c ∧ Undone (ts.drop k) s.turns) := by
  have hdestroy := @freshDir_destroy cfg c id (fun s => Undone (ts.drop k) s.turns)
    (fun s i data hs hdone => hs.tail hdone) (fun s r hs => hs) hfit hobject hnone []
  refine (hdestroy.pre fun s hs => ⟨hs.1, hpos, hs.2.1.top_le, hs.2.1.reads, hs.2.2, List.nil_prefix⟩).attempt.bind
    (fun o => ?_) (fun _ _ hf => hf.elim) fun _ hs => hs
  cases o with
  | ok a => exact Spec.fail fun s hs => hs
  | error e' => exact fun s hs => hs.elim

-- What failed before the set was the last of the turns, if they are used up.
theorem leaves_early {plan : SetPlan} {s : World KvRam} {k : Nat} (hk : k ≤ 1) (hturns : s.turns = ts.drop k)
    (hb : s.blobs = b) :
    Leaves b top (plan.bucket = 0 ∧ ∃ e, (ts.drop (1 + plan.commit)).headD .done = .error e false) s := by
  refine .inr ⟨?_, hb⟩
  rintro hnil ⟨_, e, he⟩
  have hun : Undone (ts.drop k) [] := by
    rw [← hnil, hturns]
    exact Undone.refl _
  exact undone_met hun (by omega) he

theorem mkdirAs_spec (h : Stored cfg g tbl b top) (hfree : ∀ id, top < id → b id = none) (hts : Calmly ts)
    (hfit : dirLen defaultBuckets ≤ cfg.maxPayload) (hroot : g.root = wh.dir) {id : Nat} (hid : top < id)
    (hlt : id < 2 ^ 64) {plan : SetPlan}
    (hplan : tbl.setPlan cfg g lim wh.name (newDirent typeDir 0).image = plan) :
    Spec cleaning (fun s => Faces cfg.toStoreCfg b id lim [] [] ts s ∧ Onward top s) (mkdirAs cfg maxEntry wh id)
      (failing (fun _ _ => True) (Leaves b top
        (plan.bucket = 0 ∧ ∃ e, (ts.drop (1 + plan.commit)).headD .done = .error e false))) := by
  have hmake := ((@dirCreate_spec cfg b id id lim _ cleaning) hts
    maxEntry).both ((((@kvhashCreate_client cfg id)
      (some ⟨0, 0, maxEntry⟩)) _ (onward_calls cfg.toStoreCfg top)).spec cleaning)
  rw [mkdirAs]
  refine hmake.bind (fun _ => ?_) ?_ fun _ _ => trivial
  rotate_left
  . rintro e s ⟨⟨k, hk, hs⟩, _⟩
    exact leaves_early hk hs.turns hs.blobs
  -- the directory is there
  have hdir := stored_bound h hid hlt (some (emptyDir kvhashDirMagic))
  have hset := (@kvhashSet_faces _ _ _ _ _ lim [] [] ts.tail) hdir
    (bound_free hfree hid _) wh.name (newDirent typeDir id).image
  rw [hroot, setPlan_congr ((newDirent_length typeDir id).trans (newDirent_length typeDir 0).symm), hplan] at hset
  have hgo := (hset.under cleaning_releasing).both ((((@kvhashSet_client cfg wh.dir) wh.name
    (newDirent typeDir id).image) _ (onward_calls cfg.toStoreCfg id)).spec cleaning)
  refine Spec.assuming (φ := dirLen defaultBuckets ≤ cfg.maxObject) (fun s hs => ?_) fun hobject => ?_
  . have hlen := hs.1.fit.object id (emptyDir kvhashDirMagic) (by rw [hs.1.blobs, Function.update_self])
    rwa [emptyDir, dirImage_length] at hlen
  refine Spec.pre (P := fun s => Faces cfg.toStoreCfg _ id lim [] [] ts.tail s ∧ Onward id s) ?_
    fun s hs => ⟨hs.1, hs.2.reads, hs.1.top.ge, hs.2.top_lt⟩
  refine hgo.attempt.bind (fun o => ?_) (fun _ _ hf => hf.elim) fun _ _ => trivial
  cases o with
  | ok a => exact Spec.ret fun _ _ => trivial
  | error e =>
    have htail : Calmly ts.tail := fun t ht => hts t (List.mem_of_mem_tail ht)
    have hpos : 0 < id := by omega
    rintro s ⟨hfail, hon⟩
    rcases setFailed_left htail hfail with ⟨k, hk, hb, ht⟩ | ⟨⟨h0, e', he⟩, id2, data, hid2, hb⟩
    . refine Spec.fails (undoDir_spec hfit hobject hpos (hfree id hid) e) (fun s hs => ?_) s ⟨hb, hon, ht⟩
      refine .inr ⟨?_, hs.1⟩
      rintro hnil ⟨h0, e', he⟩
      have hun := hs.2
      rw [hnil] at hun
      rw [← List.drop_drop, List.drop_one] at he
      exact undone_met hun (hk.resolve_right fun hne => hne h0) he
    . have hother : id ≠ id2 := by omega
      have hnone : Function.update b id2 (some data) id = none := by
        rw [Function.update_of_ne hother]
        exact hfree id hid
      have hrefl : Undone (s.turns.drop 0) s.turns := Undone.refl _
      refine Spec.fails (undoDir_spec hfit hobject hpos hnone e) (fun s hs => ?_) s
        ⟨by rw [hb, Function.update_comm hother], hon, hrefl⟩
      refine .inl ⟨⟨h0, e', ?_⟩, ⟨id2, by omega, ?_⟩, fun i hi => ?_⟩
      . rw [← List.drop_drop, List.drop_one]
        exact he
      . rw [hs.1, Function.update_self]
        exact nofun
      . rw [hs.1, Function.update_of_ne (by omega)]

theorem mkdirAt_spec (h : Stored cfg g tbl b top) (hfree : ∀ id, top < id → b id = none) (hts : Calmly ts)
    (hfit : dirLen defaultBuckets ≤ cfg.maxPayload) (hroot : g.root = wh.dir) {plan : SetPlan}
    (hplan : tbl.setPlan cfg g lim wh.name (newDirent typeDir 0).image = plan) :
    Spec cleaning (fun s => Faces cfg.toStoreCfg b top lim [] [] ts s ∧ Onward top s) (mkdirAt cfg maxEntry wh)
      (failing (fun _ _ => True) (Leaves b top
        (plan.bucket = 0 ∧ ∃ e, (ts.drop (1 + plan.commit)).headD .done = .error e false))) := by
  have halloc := (@blobDbAllocId_faces b top lim [] [] ts cleaning cfg.toStoreCfg).both ((onward_calls cfg.toStoreCfg top).alloc.spec cleaning)
  rw [mkdirAt]
  refine halloc.bind (fun id => ?_) (fun _ _ hf => hf.1.elim) fun _ _ => trivial
  refine Spec.ite (fun h0 => Spec.fail fun s hs => ?_) fun h0 => ?_
  . rcases hs.1 with ⟨_, hs⟩ | ⟨⟨hid, _⟩, _⟩
    . exact leaves_early (Nat.zero_le 1) hs.turns hs.blobs
    . omega
  . rintro s ⟨⟨hno, _⟩ | ⟨⟨hid, hlt⟩, hs⟩, hon⟩
    . exact absurd hno h0
    . exact mkdirAs_spec h hfree hts hfit hroot hid hlt hplan s ⟨hs, hon⟩

theorem createAt_client : Client cfg.toStoreCfg (createAt cfg wh) :=
  Client.blobDbAllocId.bind fun _ => Client.ite (Client.fail _)
    ((kvUpdate_client _ _).bind fun _ => kvhashSet_client _ _)

theorem mkdirAt_client : Client cfg.toStoreCfg (mkdirAt cfg maxEntry wh) := by
  refine Client.blobDbAllocId.bind fun id => Client.ite (Client.fail _) ?_
  refine (kvhashCreate_client _).bind fun _ => (kvhashSet_client _ _).attempt.bind fun o => ?_
  cases o with
  | ok a => exact Client.ret _
  | error e => exact kvhashDestroy_client.attempt.bind fun _ => Client.fail _

/-! Names -/

section Names

variable {T : Tree} {σ : Type} [Preorder σ] {B : Backing σ} {J : σ → Prop} {s : σ} {st : Session}

-- The name of a path, if nothing has it, or the root directory, which has none.
def refFree (T : Tree) (fs : FsCfg) (root : Nat) (path : List UInt8) : Except Errno (Except Where Where) :=
  match refWalk T fs root path with
  | .error e => .error e
  | .ok w =>
    if w.name = [] then .ok (.error w)
    else
      match T w.dir w.name with
      | some _ => .error Errno.EEXIST
      | none => .ok (.ok w)

theorem walkToFreeName_answers (h : Answers B fs J T root) (hm : st.mounted = true)
    (hroot : st.dirRoot = root) (path : CStr) (hs : J s) :
    ∃ s', J s' ∧ walkToFreeName B fs (some path) ⟨s, st⟩ =
      (.of (refFree T fs root path.chars), ⟨s', st⟩) := by
  obtain ⟨s1, hs1, hwalk⟩ := walk_answers h hm hroot path hs
  rw [walkToFreeName, Proc.bind_run, hwalk, refFree]
  cases hw : refWalk T fs root path.chars with
  | error e => exact ⟨s1, hs1, rfl⟩
  | ok w =>
    simp only [Out.of, Proc.step]
    by_cases hname : w.name = []
    . rw [if_pos hname, if_pos hname]
      exact ⟨s1, hs1, rfl⟩
    . obtain ⟨hd, hlen⟩ := refWalk_lands hw
      obtain ⟨s', hs', hget⟩ := (@direntGet_answers _ _ _ _ _ _ _ _ st) h hd hname hlen hs1
      rw [if_neg hname, if_neg hname, Proc.bind_run, Proc.attempt_run, hget]
      refine ⟨s', hs', ?_⟩
      cases hT : T w.dir w.name <;> rfl

theorem refFree_lands {p : List UInt8} (h : refFree T fs root p = .ok (.ok wh)) :
    Reach T root wh.dir := by
  rw [refFree] at h
  cases hw : refWalk T fs root p with
  | error e =>
    rw [hw] at h
    cases h
  | ok w =>
    rw [hw] at h
    simp only at h
    split at h
    . cases h
    . split at h
      . cases h
      . cases h
        exact (refWalk_lands hw).1

end Names

/-! The two calls -/

-- The file system as the store holds it. No directory has the meta for a blob of its own.
structure FsAt (kcfg : KvdbCfg) (T : Tree) (st : Session) (w : World KvRam) : Prop where
  orderly : w.Orderly kcfg.toStoreCfg
  sound : ∀ {d name de}, T d name = some de → de.Sound
  dir : st.mounted = true → ∀ {d}, Reach T st.dirRoot d → ∃ g tbl, g.root = d ∧ g.n = defaultBuckets ∧
    Stored kcfg.toKvCfg g tbl w.blobs w.top ∧
    (tbl.map kcfg.toKvCfg g = fun name => (T d name).map Dirent.image) ∧ ∀ r, ¬ tbl.Owns g r st.metaId

-- The write of a number fails, if one does.
def failingTurns : Option (Nat × Errno) → List Turn
  | none => []
  | some (n, e) => List.replicate n .done ++ [.error e false]

-- The world as a call finds it. The allocations skip `gaps`.
def World.enterFs (w : World KvRam) (f : Option (Nat × Errno)) (gaps : List Nat) : World KvRam :=
  { w with
    turns := failingTurns f
    allocs := gaps.map some
    reads := []
    history := [] }

-- The calls that make a name.
inductive Making where
  | file
  | dir
  deriving Repr, DecidableEq

def Making.run {σ : Type} [Preorder σ] (B : Backing σ) (fs : FsCfg) (path : Option CStr) : Making → F σ Unit
  | .file => blobfsCreate B fs path
  | .dir => blobfsMkdir B fs path

-- When something is left: create does not delete the body that it has bound, whatever fails after, and
-- the set of mkdir leaves a new bucket if the write that publishes it fails.
def Making.Leaks (kcfg : KvdbCfg) (fs : FsCfg) (T : Tree) (st : Session) (w : World KvRam)
    (f : Option (Nat × Errno)) (gaps : List Nat) (path : Option CStr) : Making → Prop
  | .file => ∃ p wh, path = some p ∧ st.mounted = true ∧ refFree T fs st.dirRoot p.chars = .ok (.ok wh) ∧
      wh.wantDir = false ∧ w.top + 1 + gaps.headD 0 < 2 ^ 64 ∧ ∀ e, f ≠ some (0, e)
  | .dir => ∃ p wh plan e, path = some p ∧ st.mounted = true ∧
      refFree T fs st.dirRoot p.chars = .ok (.ok wh) ∧
      lookAt (kvhashSetPlan kcfg.toKvCfg wh.dir wh.name (newDirent typeDir 0).image) w = .ok plan ∧
      plan.bucket = 0 ∧ f = some (st.metaV1.toNat + 1 + plan.commit, e)

theorem failingTurns_calmly (f : Option (Nat × Errno)) : Calmly (failingTurns f) := by
  intro t ht
  cases f with
  | none => cases ht
  | some x =>
    rcases List.mem_append.mp ht with ht | ht
    . exact .inl (List.eq_of_mem_replicate ht)
    . exact .inr ⟨x.2, List.mem_singleton.mp ht⟩

theorem failingTurns_head {f : Option (Nat × Errno)} {k : Nat} {e : Errno} :
    ((failingTurns f).drop k).headD .done = .error e false ↔ f = some (k, e) := by
  constructor
  . intro h
    cases f with
    | none => simp [failingTurns] at h
    | some x =>
      have hmet : (((SetFault.write x.1 x.2).turns false).drop k).headD .done = .error e false := h
      obtain ⟨hx, _⟩ := SetFault.met hmet
      cases hx
      rfl
  . rintro rfl
    simp [failingTurns]

section Calls

variable {kcfg : KvdbCfg} {T : Tree} {st : Session} {w : World KvRam} {f : Option (Nat × Errno)}
  {gaps : List Nat} {path : Option CStr}

-- What a call that fails leaves of the state before it. Something has become live if and only if `leak`.
structure Fallout (st : Session) (w : World KvRam) (leak : Prop) (s : WithRam (World KvRam) Session) : Prop where
  mounted : s.ram.mounted = st.mounted
  root : s.ram.dirRoot = st.dirRoot
  top_le : w.top ≤ s.base.top
  top_lt : w.top < 2 ^ 64 → s.base.top < 2 ^ 64
  same : ∀ id ≤ w.top, id ≠ st.metaId → s.base.blobs id = w.blobs id
  live : (∀ id, s.base.blobs id ≠ none ↔ w.blobs id ≠ none) ↔ ¬leak

namespace FsAt

variable (h : FsAt kcfg T st w)

include h

theorem top_lt (hm : st.mounted = true) : w.top < 2 ^ 64 := by
  obtain ⟨_, _, _, _, hstored, _⟩ := h.dir hm .root
  exact hstored.top_lt

-- The directories are there as long as only the meta and new ids are written to.
theorem treeAt (hm : st.mounted = true) {b' : Blobs} {top' : Nat} (htop : w.top ≤ top') (hlt : top' < 2 ^ 64)
    (hsame : ∀ id ≤ w.top, id ≠ st.metaId → b' id = w.blobs id) :
    TreeAt kcfg.toKvCfg T st.dirRoot b' top' where
  sound := h.sound
  dir := by
    intro d hd
    obtain ⟨g, tbl, hroot, _, hstored, hmap, hmeta⟩ := h.dir hm hd
    refine ⟨g, tbl, hroot, hstored.congr (fun r id ho => hsame id (hstored.ids r id ho).2 ?_) htop hlt, hmap⟩
    rintro rfl
    exact hmeta r ho

theorem faces (r : KvRam) :
    Faces kcfg.toStoreCfg w.blobs w.top (r.keyInlineMax, r.valInlineMax) [] [] (failingTurns f)
      ((World.enterFs w f gaps).setRam r) :=
  ⟨⟨rfl, rfl, rfl, List.nil_prefix, List.nil_prefix⟩, rfl, nofun,
    ⟨h.orderly.fit.tallied, h.orderly.fit.object⟩⟩

end FsAt

theorem walk_unmounted {σ : Type} [Preorder σ] {B : Backing σ} {s : σ} (hm : st.mounted = false) (p : CStr) :
    walk B fs (some p) ⟨s, st⟩ = (.err Errno.ENODEV, ⟨s, st⟩) := by
  have hsession : (session : F σ Session) ⟨s, st⟩ = (.ok st, ⟨s, st⟩) := rfl
  rw [walk, Proc.bind_ok hsession, if_pos hm]
  rfl

-- Every path leads where it led.
theorem Fallout.resolves {leak : Prop} {s : WithRam (World KvRam) Session} (hf : Fallout st w leak s)
    (h : FsAt kcfg T st w) (p : Option CStr) :
    (resolve (kvhashBacking kcfg) fs p ⟨s.base.still, s.ram⟩).1 =
      (resolve (kvhashBacking kcfg) fs p ⟨w.still, st⟩).1 := by
  cases p with
  | none => rfl
  | some p =>
    cases hm : st.mounted with
    | false =>
      have hm' : s.ram.mounted = false := hf.mounted.trans hm
      rw [resolve, Proc.bind_err (walk_unmounted hm p), Proc.bind_err (walk_unmounted hm' p)]
    | true =>
      have hlt := h.top_lt hm
      have htree : TreeAt kcfg.toKvCfg T st.dirRoot w.blobs w.top := h.treeAt hm le_rfl hlt fun _ _ _ => rfl
      have htree' : TreeAt kcfg.toKvCfg T st.dirRoot s.base.blobs s.base.top :=
        h.treeAt hm hf.top_le (hf.top_lt hlt) hf.same
      obtain ⟨_, _, hr⟩ := resolve_answers (answers_still htree) hm rfl p (Leafed.refl rfl)
      obtain ⟨_, _, hr'⟩ := resolve_answers (answers_still htree') (hf.mounted.trans hm) hf.root p
        (Leafed.refl rfl)
      rw [hr, hr']

-- A call that has come to nothing before its first write.
theorem Fallout.stay {leak : Prop} (r : KvRam) (hno : ¬leak) :
    Fallout st w leak ⟨(World.enterFs w f gaps).setRam r, st⟩ :=
  ⟨rfl, rfl, le_rfl, fun hlt => hlt, fun _ _ _ => rfl, iff_of_true (fun _ => Iff.rfl) hno⟩

-- `b` is what the blobs were but for the meta.
theorem Fallout.of_leaves {leak leak' : Prop} {b : Blobs} {s : World KvRam} {st' : Session}
    (h : FsAt kcfg T st w) (hleaves : Leaves b w.top leak' s)
    (hsame : ∀ id ≠ st.metaId, b id = w.blobs id) (hlive : ∀ id, b id ≠ none ↔ w.blobs id ≠ none)
    (hleak : leak' → leak) (hno : (s.turns = [] → ¬leak') → ¬leak) (hon : Onward w.top s)
    (hmount : st'.mounted = st.mounted) (hroot : st'.dirRoot = st.dirRoot) : Fallout st w leak ⟨s, st'⟩ := by
  rcases hleaves with ⟨hl, ⟨id, hid, hnew⟩, hold⟩ | ⟨hl, hb⟩
  . refine ⟨hmount, hroot, hon.top_le, fun _ => hon.top_lt, fun i hi hne => ?_, ?_⟩
    . exact (hold i hi).trans (hsame i hne)
    . exact iff_of_false (fun hall => (hall id).mp hnew (h.orderly.tidy id hid)) (not_not.mpr (hleak hl))
  . refine ⟨hmount, hroot, hon.top_le, fun _ => hon.top_lt, fun i _ hne => ?_, ?_⟩
    . exact (congrFun hb i).trans (hsame i hne)
    . refine iff_of_true (fun i => ?_) (hno hl)
      have hi : s.blobs i = b i := congrFun hb i
      rw [hi]
      exact hlive i

-- No name is free.
def NoName (fs : FsCfg) (T : Tree) (st : Session) (path : Option CStr) : Prop :=
  ∀ p wh, path = some p → st.mounted = true → refFree T fs st.dirRoot p.chars ≠ .ok (.ok wh)

-- The walk to a free name, in the world as a call finds it.
theorem walkToFreeName_entered (h : FsAt kcfg T st w) (fs : FsCfg) (f : Option (Nat × Errno)) (gaps : List Nat)
    (path : Option CStr) :
    ∃ r : KvRam, (r.keyInlineMax, r.valInlineMax) = (w.ram.keyInlineMax, w.ram.valInlineMax) ∧
      ((∃ e, walkToFreeName (kvhashBacking kcfg) fs path ⟨World.enterFs w f gaps, st⟩ =
          (.err e, ⟨(World.enterFs w f gaps).setRam r, st⟩)) ∧ NoName fs T st path ∨
        (∃ wh, walkToFreeName (kvhashBacking kcfg) fs path ⟨World.enterFs w f gaps, st⟩ =
          (.ok (.error wh), ⟨(World.enterFs w f gaps).setRam r, st⟩)) ∧ NoName fs T st path ∨
        ∃ p wh, (path = some p ∧ st.mounted = true ∧ refFree T fs st.dirRoot p.chars = .ok (.ok wh)) ∧
          walkToFreeName (kvhashBacking kcfg) fs path ⟨World.enterFs w f gaps, st⟩ =
            (.ok (.ok wh), ⟨(World.enterFs w f gaps).setRam r, st⟩)) := by
  cases path with
  | none => exact ⟨w.ram, rfl, .inl ⟨⟨Errno.EINVAL, rfl⟩, nofun⟩⟩
  | some p =>
    cases hm : st.mounted with
    | false =>
      refine ⟨w.ram, rfl, .inl ⟨⟨Errno.ENODEV, ?_⟩, fun _ _ _ hmount => ?_⟩⟩
      . rw [walkToFreeName, Proc.bind_err (walk_unmounted hm p)]
        rfl
      . rw [hm] at hmount
        cases hmount
    | true =>
      have htree : TreeAt kcfg.toKvCfg T st.dirRoot (World.enterFs w f gaps).blobs (World.enterFs w f gaps).top :=
        h.treeAt hm le_rfl (h.top_lt hm) fun _ _ _ => rfl
      obtain ⟨_, ⟨_, r, hlim, rfl⟩, hwalk⟩ := (@walkToFreeName_answers _ fs) (htree.answers rfl) hm rfl p
        (Leafed.refl rfl)
      refine ⟨r, hlim, ?_⟩
      rw [hwalk]
      have hno : ∀ {o : Except Errno (Except Where Where)}, refFree T fs st.dirRoot p.chars = o →
          (∀ wh, o ≠ .ok (.ok wh)) → NoName fs T st (some p) := by
        rintro o rfl ho p' wh hp _
        cases hp
        exact ho wh
      cases hname : refFree T fs st.dirRoot p.chars with
      | error e => exact .inl ⟨⟨e, rfl⟩, hno hname nofun⟩
      | ok o =>
        cases o with
        | error wh => exact .inr (.inl ⟨⟨wh, rfl⟩, hno hname nofun⟩)
        | ok wh => exact .inr (.inr ⟨p, wh, ⟨rfl, rfl, hname⟩, rfl⟩)

-- The rest of create does not know of the session.
theorem createAt_below (wh : Where) :
    ((do
      let bodyId ← (kvhashBacking kcfg).allocId.below
      if bodyId = 0 then Proc.fail Errno.EIO
      else do
        ((kvhashBacking kcfg).update bodyId []).below
        ((kvhashBacking kcfg).mapSet wh.dir wh.name (newDirent typeFile bodyId).image).below) :
      F (World KvRam) Unit) = (createAt kcfg.toKvCfg wh).below := by
  simp only [createAt, Proc.below_bind, Proc.below_ite, Proc.below_fail]
  rfl

theorem create_fallout (h : FsAt kcfg T st w) {e : Errno} {s : WithRam (World KvRam) Session}
    (hrun : blobfsCreate (kvhashBacking kcfg) fs path ⟨World.enterFs w f gaps, st⟩ = (.err e, s))
    (hclean : cleaning.holds s.base) (hmet : s.base.turns = []) :
    Fallout st w (Making.Leaks kcfg fs T st w f gaps path .file) s := by
  obtain ⟨r, _, ⟨⟨e', hwalk⟩, hno⟩ | ⟨⟨wh, hwalk⟩, hno⟩ | ⟨p, wh, ⟨hpath, hm, hfree⟩, hwalk⟩⟩ :=
    walkToFreeName_entered h fs f gaps path
  . rw [blobfsCreate, Proc.bind_err hwalk] at hrun
    cases hrun
    exact Fallout.stay r fun ⟨p, wh, hp, hmount, hfree, _⟩ => hno p wh hp hmount hfree
  . rw [blobfsCreate, Proc.bind_ok hwalk] at hrun
    cases hrun
    exact Fallout.stay r fun ⟨p, wh, hp, hmount, hfree, _⟩ => hno p wh hp hmount hfree
  -- the condition speaks of this name
  have hsame : ∀ {p' : CStr} {wh' : Where}, path = some p' →
      refFree T fs st.dirRoot p'.chars = .ok (.ok wh') → wh' = wh := by
    intro p' wh' hp' hfree'
    rw [hpath] at hp'
    cases hp'
    rw [hfree] at hfree'
    cases hfree'
    rfl
  rw [blobfsCreate, Proc.bind_ok hwalk] at hrun
  simp only at hrun
  by_cases hdir : wh.wantDir = true
  . rw [if_pos hdir] at hrun
    cases hrun
    refine Fallout.stay r fun ⟨p', wh', hp', _, hfree', hfile, _⟩ => ?_
    rw [hsame hp' hfree', hdir] at hfile
    cases hfile
  rw [if_neg hdir, createAt_below, Proc.below_run] at hrun
  obtain ⟨g, tbl, hroot, _, hstored, _, _⟩ := h.dir hm (refFree_lands hfree)
  have hspec := createAt_spec hstored h.orderly.tidy (failingTurns_calmly f) hroot gaps
    ((World.enterFs w f gaps).setRam r) ⟨rfl, h.faces r⟩
  have hon := (@createAt_client kcfg.toKvCfg wh) _ (onward_calls kcfg.toStoreCfg w.top)
    ((World.enterFs w f gaps).setRam r) ⟨rfl, le_rfl, h.top_lt hm⟩
  generalize createAt kcfg.toKvCfg wh ((World.enterFs w f gaps).setRam r) = x at hrun hspec hon
  obtain ⟨o, s1⟩ := x
  obtain ⟨rfl, rfl⟩ := Prod.mk.inj hrun
  have hleaves := hspec (cleaning_releasing _ hclean)
  have hfail : (∀ e, (failingTurns f).headD .done ≠ .error e false) ↔ ∀ e, f ≠ some (0, e) :=
    forall_congr' fun e => not_congr (failingTurns_head (k := 0))
  refine Fallout.of_leaves h hleaves (fun _ _ => rfl) (fun _ => Iff.rfl) ?_ ?_ hon rfl rfl
  . rintro ⟨hlt, hf⟩
    exact ⟨p, wh, hpath, hm, hfree, by simpa using hdir, hlt, hfail.mp hf⟩
  . rintro hl ⟨_, _, _, _, _, _, hlt, hf⟩
    exact hl hmet ⟨hlt, hfail.mpr hf⟩

/-! The meta -/

-- The meta was there, or is as it was.
def Upgraded (st : Session) (b b1 : Blobs) : Prop :=
  (∀ id ≠ st.metaId, b1 id = b id) ∧ ∀ id, b1 id ≠ none ↔ b id ≠ none

theorem metaRead_run (kcfg : KvdbCfg) (fs : FsCfg) (st : Session) {s : World KvRam} (hr : s.reads = [])
    (id : Nat) :
    ∃ o : Except Errno (Meta × Bool), metaRead (kvhashBacking kcfg) fs id ⟨s, st⟩ = (.of o, ⟨s, st⟩) ∧
      ∀ x, o = .ok x → s.blobs id ≠ none := by
  have hget : ∃ o : Except Errno (List UInt8),
      (blobDbGet id (metaLen fs) : K (List UInt8)) s = (.of o, s) ∧ ∀ x, o = .ok x → s.blobs id ≠ none := by
    have hstill : ((blobDbGet id (metaLen fs) : K (List UInt8)) s).2 = s := Steady.readBlob id _ s hr
    cases hb : s.blobs id with
    | none =>
      refine ⟨.error Errno.ENOENT, Prod.ext ?_ hstill, nofun⟩
      simp only [blobDbGet, readBlob, hr, List.headD_nil, hb]
      rfl
    | some data =>
      refine ⟨if data.length ≤ metaLen fs then .ok data else .error Errno.ENOMEM, Prod.ext ?_ hstill,
        fun _ _ => nofun⟩
      simp only [blobDbGet, readBlob, hr, List.headD_nil, hb]
      split <;> rfl
  obtain ⟨o, hrun, hlive⟩ := hget
  have hbelow : ((kvhashBacking kcfg).get id (metaLen fs)).below ⟨s, st⟩ = (.of o, (⟨s, st⟩ : WithRam _ _)) := by
    rw [Proc.below_run]
    show (((blobDbGet id (metaLen fs) : K (List UInt8)) s).1, _) = _
    rw [hrun]
    show (_, (⟨((blobDbGet id (metaLen fs) : K (List UInt8)) s).2, st⟩ : WithRam _ _)) = _
    rw [hrun]
  cases o with
  | error e => exact ⟨.error e, by rw [metaRead, Proc.bind_err hbelow]; rfl, nofun⟩
  | ok data =>
    refine ⟨metaOf fs data, ?_, fun _ _ => hlive data rfl⟩
    rw [metaRead, Proc.bind_ok hbelow, Proc.ofExcept_run]

theorem metaUpgrade_spec (fs : FsCfg) (st : Session) {b : Blobs} {top : Nat} {lim : Nat × Nat}
    {ts : List Turn} (hts : Calmly ts) {s : World KvRam} (hs : Faces kcfg.toStoreCfg b top lim [] [] ts s) (hon : Onward top s) :
    Post.Holds
      ⟨fun _ x => ∃ b1, Upgraded st b b1 ∧ Onward top x.base ∧ x.ram.mounted = st.mounted ∧
          x.ram.dirRoot = st.dirRoot ∧
          Faces kcfg.toStoreCfg b1 top lim [] [] (ts.drop st.metaV1.toNat) x.base,
        fun _ x => Onward top x.base ∧ x.ram.mounted = st.mounted ∧ x.ram.dirRoot = st.dirRoot ∧
          x.base.blobs = b ∧ ∃ k ≤ st.metaV1.toNat, x.base.turns = ts.drop k,
        fun _ => True⟩
      (metaUpgrade (kvhashBacking kcfg) fs ⟨s, st⟩) := by
  have hsession : (session : F (World KvRam) Session) ⟨s, st⟩ = (.ok st, ⟨s, st⟩) := rfl
  rw [metaUpgrade, Proc.bind_ok hsession]
  cases hv : st.metaV1 with
  | false => exact ⟨b, ⟨fun _ _ => rfl, fun _ => Iff.rfl⟩, hon, rfl, rfl, hs⟩
  | true =>
    rw [if_neg (by simp)]
    obtain ⟨o, hread, hlive⟩ := metaRead_run kcfg fs st hon.reads st.metaId
    cases o with
    | error e =>
      rw [Proc.bind_err hread]
      exact ⟨hon, rfl, rfl, hs.blobs, 0, Nat.zero_le _, hs.turns⟩
    | ok x =>
      obtain ⟨m, v1⟩ := x
      rw [Proc.bind_ok hread]
      simp only
      rw [metaWrite, Proc.bind_ok hsession, Proc.bind_run, Proc.below_run]
      have hupdate := (@kvUpdate_faces kcfg.toKvCfg _ _ _ _ _ _ (⟨fun _ => True, fun _ h => h⟩ : Hypothesis _))
        st.metaId (metaImage fs m) s hs trivial
      have hgo := (onward_calls kcfg.toStoreCfg top).update st.metaId (metaImage fs m) s hon
      show Post.Holds _ (Proc.step ((kvUpdate kcfg.toKvCfg st.metaId (metaImage fs m) s).1,
        (⟨(kvUpdate kcfg.toKvCfg st.metaId (metaImage fs m) s).2, st⟩ : WithRam _ Session)) _)
      change Onward top (kvUpdate kcfg.toKvCfg st.metaId (metaImage fs m) s).2 at hgo
      generalize kvUpdate kcfg.toKvCfg st.metaId (metaImage fs m) s = r at hupdate hgo
      obtain ⟨o, s1⟩ := r
      cases o with
      | ok u =>
        refine ⟨Function.update b st.metaId (some (metaImage fs m)),
          ⟨fun i hi => Function.update_of_ne hi _ _, fun i => ?_⟩, hgo, rfl, rfl, ?_⟩
        rotate_left
        . show Faces _ _ _ _ _ _ (ts.drop 1) s1
          rw [List.drop_one]
          exact hupdate
        . by_cases hi : i = st.metaId
          . subst hi
            rw [Function.update_self, ← hs.blobs]
            exact iff_of_true nofun (hlive _ rfl)
          . rw [Function.update_of_ne hi]
      | err e =>
        rcases hupdate with ⟨k, hk, hs1, _⟩ | ⟨⟨e', he⟩, _⟩
        . exact ⟨hgo, rfl, rfl, hs1.blobs, k, hk, hs1.turns⟩
        . exact absurd he (hts.head 0)
      | cut => trivial

-- Nor does the rest of mkdir.
theorem mkdirAt_below (wh : Where) :
    ((do
      let dirId ← (kvhashBacking kcfg).allocId.below
      if dirId = 0 then Proc.fail Errno.EIO
      else do
        dirCreate (kvhashBacking kcfg) fs dirId
        match ← Proc.attempt (((kvhashBacking kcfg).mapSet wh.dir wh.name
            (newDirent typeDir dirId).image).below : F (World KvRam) Unit) with
        | .ok _ => pure ()
        | .error e => do
          let _ ← Proc.attempt (((kvhashBacking kcfg).mapDestroy dirId).below : F (World KvRam) Unit)
          Proc.fail e) : F (World KvRam) Unit) =
      (mkdirAt kcfg.toKvCfg (fs.nameMax + direntLen) wh).below := by
  have hundo : ∀ (dirId : Nat) (o : Except Errno Unit),
      (match o with
        | .ok _ => pure ()
        | .error e => do
          let _ ← Proc.attempt (((kvhashBacking kcfg).mapDestroy dirId).below : F (World KvRam) Unit)
          Proc.fail e : F (World KvRam) Unit) =
        (match o with
          | .ok _ => (pure () : K Unit)
          | .error e => do
            let _ ← Proc.attempt (kvhashDestroy kcfg.toKvCfg dirId)
            Proc.fail e).below := by
    intro dirId o
    cases o with
    | ok u => rfl
    | error e =>
      simp only [Proc.below_bind, Proc.below_attempt, Proc.below_fail]
      rfl
  simp only [mkdirAt, mkdirAs, dirCreate, hundo, Proc.below_bind, Proc.below_ite, Proc.below_fail,
    Proc.below_attempt]
  generalize fs.nameMax + direntLen = maxEntry
  rfl

theorem mkdir_fallout (h : FsAt kcfg T st w) {e : Errno} {s : WithRam (World KvRam) Session}
    (hrun : blobfsMkdir (kvhashBacking kcfg) fs path ⟨World.enterFs w f gaps, st⟩ = (.err e, s))
    (hclean : cleaning.holds s.base) (hmet : s.base.turns = []) :
    Fallout st w (Making.Leaks kcfg fs T st w f gaps path .dir) s := by
  obtain ⟨r, hlim, ⟨⟨e', hwalk⟩, hno⟩ | ⟨⟨wh, hwalk⟩, hno⟩ | ⟨p, wh, ⟨hpath, hm, hfree⟩, hwalk⟩⟩ :=
    walkToFreeName_entered h fs f gaps path
  . rw [blobfsMkdir, Proc.bind_err hwalk] at hrun
    cases hrun
    exact Fallout.stay r fun ⟨p, wh, _, _, hp, hmount, hfree, _⟩ => hno p wh hp hmount hfree
  . rw [blobfsMkdir, Proc.bind_ok hwalk] at hrun
    cases hrun
    exact Fallout.stay r fun ⟨p, wh, _, _, hp, hmount, hfree, _⟩ => hno p wh hp hmount hfree
  obtain ⟨g, tbl, hroot, hn, hstored, _, hmeta⟩ := h.dir hm (refFree_lands hfree)
  obtain ⟨plan, hplan, hset⟩ := (kvhashSetPlan_views g.root wh.name (newDirent typeDir 0).image).silent.found
    (kvhashSetPlan_spec (fun _ hw => hw) hstored wh.name (newDirent typeDir 0).image)
  rw [hroot] at hplan
  -- the condition speaks of this name and this plan
  have hleak : Making.Leaks kcfg fs T st w f gaps path .dir ↔
      plan.bucket = 0 ∧ ∃ e, ((failingTurns f).drop (st.metaV1.toNat + 1 + plan.commit)).headD .done =
        .error e false := by
    simp only [failingTurns_head]
    constructor
    . rintro ⟨p', wh', plan', e', hp', _, hfree', hplan', h0, hf⟩
      rw [hpath] at hp'
      cases hp'
      rw [hfree] at hfree'
      cases hfree'
      rw [hplan] at hplan'
      cases hplan'
      exact ⟨h0, e', hf⟩
    . rintro ⟨h0, e', hf⟩
      exact ⟨p, wh, plan, e', hpath, hm, hfree, hplan, h0, hf⟩
  rw [blobfsMkdir, Proc.bind_ok hwalk] at hrun
  simp only at hrun
  have hon0 : Onward w.top ((World.enterFs w f gaps).setRam r) := ⟨rfl, le_rfl, h.top_lt hm⟩
  have hup := metaUpgrade_spec fs st (failingTurns_calmly f) (h.faces r) hon0
  rw [Proc.bind_run] at hrun
  generalize metaUpgrade (kvhashBacking kcfg) fs ⟨(World.enterFs w f gaps).setRam r, st⟩ = x at hrun hup
  obtain ⟨o, s1, st1⟩ := x
  cases o with
  | cut => cases hrun
  | err e1 =>
    cases hrun
    obtain ⟨hon, hmount, hdir, hb, k, hk, hturns⟩ := hup
    refine Fallout.of_leaves h (.inr ⟨fun _ => ?_, hb⟩) (fun _ _ => rfl) (fun _ => Iff.rfl) (fun hl => hl)
      (fun hl => hl hmet) hon hmount hdir
    rw [hleak]
    rintro ⟨_, e', he⟩
    have hun : Undone ((failingTurns f).drop k) [] := by
      rw [← hmet, hturns]
      exact Undone.refl _
    exact undone_met hun (by omega) he
  | ok u =>
    obtain ⟨b1, ⟨hsame, hlive⟩, hon, hmount, hdir, hs1⟩ := hup
    have hrest : (mkdirAt kcfg.toKvCfg (fs.nameMax + direntLen) wh).below ⟨s1, st1⟩ = (.err e, s) := by
      rw [← mkdirAt_below]
      exact hrun
    rw [Proc.below_run] at hrest
    have hstored1 : Stored kcfg.toKvCfg g tbl b1 w.top := by
      refine hstored.congr (fun role id ho => hsame id ?_) le_rfl hstored.top_lt
      rintro rfl
      exact hmeta role ho
    have hfree1 : ∀ id, w.top < id → b1 id = none := by
      intro id hid
      by_contra hne
      exact (hlive id).mp hne (h.orderly.tidy id hid)
    have hfit : dirLen defaultBuckets ≤ kcfg.maxPayload := hn ▸ hstored.shape.n_fits
    have hcalm : Calmly ((failingTurns f).drop st.metaV1.toNat) :=
      fun t ht => failingTurns_calmly f t (List.mem_of_mem_drop ht)
    have hplan1 : tbl.setPlan kcfg.toKvCfg g (r.keyInlineMax, r.valInlineMax) wh.name
        (newDirent typeDir 0).image = plan := by
      rw [hlim, hset]
    have hspec := (@mkdirAt_spec _ _ _ _ _ _ _ _ (fs.nameMax + direntLen)) hstored1 hfree1 hcalm hfit hroot hplan1 s1
      ⟨hs1, hon⟩
    have hon2 := (@mkdirAt_client kcfg.toKvCfg wh (fs.nameMax + direntLen)) _
      (onward_calls kcfg.toStoreCfg w.top) s1 hon
    generalize mkdirAt kcfg.toKvCfg (fs.nameMax + direntLen) wh s1 = x at hrest hspec hon2
    obtain ⟨o, s2⟩ := x
    obtain ⟨rfl, rfl⟩ := Prod.mk.inj hrest
    have hleaves := hspec hclean
    rw [List.drop_drop, ← Nat.add_assoc, ← hleak] at hleaves
    exact Fallout.of_leaves h hleaves hsame hlive (fun hl => hl) (fun hl => hl hmet) hon2 hmount hdir

-- A create or mkdir that fails leaves the live blobs and every path as they were, unless create has
-- bound the body, or the write that fails is the one that publishes a new bucket for mkdir.
theorem making_leaves (h : FsAt kcfg T st w) (op : Making) (path : Option CStr) (f : Option (Nat × Errno))
    (gaps : List Nat) {e : Errno} {s : WithRam (World KvRam) Session}
    (hrun : op.run (kvhashBacking kcfg) fs path ⟨World.enterFs w f gaps, st⟩ = (.err e, s))
    (hclean : cleaning.holds s.base) (hmet : s.base.turns = []) :
    ((∀ id, s.base.blobs id ≠ none ↔ w.blobs id ≠ none) ∧
        ∀ p, (resolve (kvhashBacking kcfg) fs p ⟨s.base.still, s.ram⟩).1 =
          (resolve (kvhashBacking kcfg) fs p ⟨w.still, st⟩).1) ↔
      ¬op.Leaks kcfg fs T st w f gaps path := by
  have hfall : Fallout st w (op.Leaks kcfg fs T st w f gaps path) s := by
    cases op with
    | file => exact create_fallout h hrun hclean hmet
    | dir => exact mkdir_fallout h hrun hclean hmet
  rw [← hfall.live]
  exact and_iff_left fun p => hfall.resolves h p

end Calls

theorem owns_live (h : Stored cfg g tbl b top) {r : Role} {id : Nat} (ho : tbl.Owns g r id) : b id ≠ none := by
  cases ho with
  | root hd =>
    rw [h.top_dir hd]
    exact nofun
  | leaf ht =>
    rw [h.leaf_dir _ ht]
    exact nofun
  | bucket hc hb =>
    rw [h.bucket _ hc hb]
    exact nofun
  | key hc hp hk =>
    rw [(h.sound _ hc _ hp).key_live hk]
    exact nofun
  | val hc hp hv =>
    rw [(h.sound _ hc _ hp).val_live hv]
    exact nofun

-- The root directory with one file, and its meta.
def oneFileFs : World KvRam := oneFileWorld.edit 1 (some (metaImage twelve (freshMeta twelve 2))) .done

theorem oneFileFs_at : FsAt smallKvdb oneFile ⟨true, false, false, 1, 2⟩ oneFileFs where
  orderly := by
    have h : oneFileWorld.Orderly smallMap.toStoreCfg := lifeOfMap_orderly blankMap_orderly _
    refine ⟨h.fit.edit (by decide +kernel) fun _ => by decide +kernel, ?_⟩
    exact Tidies.edit h.tidy _ _ (.inl (by decide +kernel))
  sound := oneFile_at.sound
  dir := by
    intro _ d hd
    obtain ⟨g, tbl, hroot, hn, hstored, hmap⟩ := oneFile_dir hd
    have hno : ∀ r, ¬ tbl.Owns g r 1 := by
      intro r ho
      have hbare : oneFileWorld.blobs 1 = none := by decide +kernel
      exact owns_live hstored ho hbare
    refine ⟨g, tbl, hroot, hn, ?_, hmap, hno⟩
    refine hstored.congr (fun r id ho => Function.update_of_ne ?_ _ _) le_rfl hstored.top_lt
    rintro rfl
    exact hno r ho

-- The set of the name "b" fails at its bucket, and the body stays.
theorem making_leaves_body :
    ((∀ id, (blobfsCreate (kvhashBacking smallKvdb) twelve (some ⟨[98], by decide⟩)
          ⟨World.enterFs oneFileFs (some (1, Errno.EIO)) [], ⟨true, false, false, 1, 2⟩⟩).2.base.blobs id ≠
            none ↔ oneFileFs.blobs id ≠ none) ∧
        ∀ p, (resolve (kvhashBacking smallKvdb) twelve p
            ⟨(blobfsCreate (kvhashBacking smallKvdb) twelve (some ⟨[98], by decide⟩)
              ⟨World.enterFs oneFileFs (some (1, Errno.EIO)) [], ⟨true, false, false, 1, 2⟩⟩).2.base.still,
              (blobfsCreate (kvhashBacking smallKvdb) twelve (some ⟨[98], by decide⟩)
                ⟨World.enterFs oneFileFs (some (1, Errno.EIO)) [], ⟨true, false, false, 1, 2⟩⟩).2.ram⟩).1 =
          (resolve (kvhashBacking smallKvdb) twelve p
            ⟨oneFileFs.still, ⟨true, false, false, 1, 2⟩⟩).1) ↔
      ¬Making.Leaks smallKvdb twelve oneFile ⟨true, false, false, 1, 2⟩ oneFileFs (some (1, Errno.EIO)) []
        (some ⟨[98], by decide⟩) .file :=
  making_leaves oneFileFs_at .file (some ⟨[98], by decide⟩) (some (1, Errno.EIO)) []
    (e := Errno.EIO) (Prod.ext (by decide +kernel) rfl) (by decide +kernel) (by decide +kernel)

-- create says -EIO, and its body, a blob that was not there, is live.
theorem failed_create_leaves_body :
    (blobfsCreate (kvhashBacking smallKvdb) twelve (some ⟨[98], by decide⟩)
        ⟨World.enterFs oneFileFs (some (1, Errno.EIO)) [], ⟨true, false, false, 1, 2⟩⟩).1 = .err Errno.EIO ∧
      cleaning.holds (blobfsCreate (kvhashBacking smallKvdb) twelve (some ⟨[98], by decide⟩)
        ⟨World.enterFs oneFileFs (some (1, Errno.EIO)) [], ⟨true, false, false, 1, 2⟩⟩).2.base ∧
      oneFileFs.blobs 5 = none ∧
      (blobfsCreate (kvhashBacking smallKvdb) twelve (some ⟨[98], by decide⟩)
        ⟨World.enterFs oneFileFs (some (1, Errno.EIO)) [], ⟨true, false, false, 1, 2⟩⟩).2.base.blobs 5 =
          some [] := by
  decide +kernel

end KeyValueDb.Blobfs
