import KeyValueDb.Interfaces.KvdbRuns

/-!
What kvdb_has says of a key, next to what kvdb_get says of it. Both look the key up in the same way,
and kvdb_has takes every failure but -ENOENT for a hit.
-/

namespace KeyValueDb.Containers

def Event.isReadError : Event → Bool
  | .edit _ => false
  | .readError _ _ => true

instance (hist : List Event) : Decidable (ReadFailed hist) :=
  decidable_of_iff (∃ ev ∈ hist, ev.isReadError = true) <| by
    constructor
    . rintro ⟨ev, hmem, h⟩
      cases ev with
      | edit e => cases h
      | readError id e => exact ⟨id, e, hmem⟩
    . rintro ⟨id, e, hmem⟩
      exact ⟨_, hmem, rfl⟩

/-! Procedures that pass on what a read reports -/

-- It returns only if none of its reads has failed, and it does not answer a read that failed with
-- -ENOENT.
def Candid {α : Type} (x : K α) : Prop :=
  ∀ hist, Spec telling (fun s => s.history = hist) x
    ⟨fun _ s => s.history = hist, fun e s => s.history = hist ∨ e ≠ Errno.ENOENT, fun _ => False⟩

namespace Candid

variable {α β : Type}

theorem ret (a : α) : Candid (pure a : K α) := fun _ => Spec.ret fun _ h => h

theorem fail (e : Errno) : Candid (Proc.fail e : K α) := fun _ => Spec.fail fun _ h => .inl h

theorem bind {x : K α} {f : α → K β} (hx : Candid x) (hf : ∀ a, Candid (f a)) : Candid (x >>= f) :=
  fun hist => (hx hist).bind (fun a => hf a hist) (fun _ _ h => h) fun _ h => h

theorem ite {c : Prop} [Decidable c] {x y : K α} (hx : Candid x) (hy : Candid y) :
    Candid (if c then x else y) := by
  split
  . exact hx
  . exact hy

theorem ofExcept (r : Except Errno α) : Candid (Proc.ofExcept r : K α) := by
  cases r with
  | ok a => exact ret a
  | error e => exact fail e

theorem getRam : Candid getRam := fun _ => Spec.read fun _ h => h

theorem putRam (r : KvRam) : Candid (putRam r) := fun _ => Spec.modify fun _ h => h

theorem readBlob (id : Nat) {f : Blobs → Out Errno α} (hf : ∀ b, f b ≠ .cut) :
    Candid (Containers.readBlob id f : K α) := by
  intro hist s hs hh
  simp only [Containers.readBlob] at hh ⊢
  cases hr : s.reads.headD none with
  | none =>
    cases ho : f s.blobs with
    | ok a => exact hs
    | err e => exact .inl hs
    | cut => exact absurd ho (hf _)
  | some e =>
    rw [hr] at hh
    exact .inr (hh (.readError id e) (by simp [World.readFailed])).1

theorem blobDbGet (id outSz : Nat) : Candid (Containers.blobDbGet id outSz) := by
  refine readBlob id fun b => ?_
  cases b id with
  | none => exact nofun
  | some data => dsimp only; split <;> exact nofun

theorem blobDbRead (id off len : Nat) : Candid (Containers.blobDbRead id off len) := by
  refine readBlob id fun b => ?_
  cases b id <;> exact nofun

-- What is not there is not reported as such.
theorem handed {x : K α} {f : Except Errno α → K β} (hx : Candid x) (hok : ∀ a, Candid (f (.ok a)))
    (herr : ∀ e, ∃ e' ≠ Errno.ENOENT, f (.error e) = Proc.fail e') : Candid (Proc.attempt x >>= f) := by
  intro hist
  refine (hx hist).attempt.bind (fun r => ?_) (fun _ _ h => h.elim) fun _ h => h
  cases r with
  | ok a => exact hok a hist
  | error e =>
    obtain ⟨e', hne, he⟩ := herr e
    rw [he]
    exact Spec.fail fun _ _ => .inr hne

end Candid

variable {cfg : KvCfg} {root : Nat}

theorem dirBuf_candid : Candid dirBuf := Candid.getRam.bind fun _ => Candid.ret _

theorem bktBuf_candid : Candid bktBuf := Candid.getRam.bind fun _ => Candid.ret _

theorem setDirBuf_candid (f : List UInt8 → List UInt8) : Candid (setDirBuf f) :=
  Candid.getRam.bind fun _ => Candid.putRam _

theorem getBkt_candid (id : Nat) : Candid (getBkt cfg id) :=
  (Candid.blobDbGet _ _).bind fun _ =>
    (Candid.getRam.bind fun _ => Candid.putRam _).bind fun _ => Candid.ret _

theorem dirLoad_candid (id : Nat) : Candid (dirLoad cfg id) := by
  have hget : Candid (getDir cfg id) :=
    (Candid.blobDbGet _ _).bind fun _ => (setDirBuf_candid _).bind fun _ => Candid.ret _
  exact (hget.bind fun _ => dirBuf_candid.bind fun _ => Candid.ofExcept _).bind fun _ =>
    Candid.ite (Candid.fail _) (Candid.ret _)

theorem resolveLeaf_candid (h : UInt32) : Candid (resolveLeaf cfg root h) :=
  (dirLoad_candid root).bind fun _ => Candid.ite (Candid.ret _) (dirBuf_candid.bind fun _ =>
    Candid.ite (Candid.fail _) ((dirLoad_candid _).bind fun _ =>
      Candid.ite (Candid.fail _) (Candid.ret _)))

theorem keyChunk_candid (src : KeySrc) (pos n : Nat) : Candid (keyChunk src pos n) := by
  cases src with
  | ram p => exact Candid.ret _
  | blob id =>
    refine Candid.ite (Candid.fail _) ?_
    refine (Candid.blobDbRead id pos n).handed ?_ ?_
    . exact fun _ => Candid.ite (Candid.ret _) (Candid.fail _)
    . refine fun e => ⟨_, ?_, rfl⟩
      split
      . rintro ⟨⟩
      . next h => exact h

theorem keyCmpChunks_candid (a c : KeySrc) (len fuel pos : Nat) :
    Candid (keyCmpChunks a c len fuel pos) := by
  induction fuel generalizing pos with
  | zero => exact Candid.ret _
  | succ fuel ih =>
    exact Candid.ite ((keyChunk_candid _ _ _).bind fun _ => (keyChunk_candid _ _ _).bind fun _ =>
      Candid.ite (Candid.ret _) (ih _)) (Candid.ret _)

theorem keyCmpBytes_candid (a c : KeySrc) (len : Nat) (scratch : Bool) :
    Candid (keyCmpBytes cfg a c len scratch) := by
  have hscratch : ∀ src (f : List UInt8 → Ordering),
      Candid (do let q ← keyToScratch src len; pure (f q)) := by
    intro src f
    refine Candid.bind ?_ fun _ => Candid.ret _
    exact (keyChunk_candid _ _ _).bind fun _ => (setDirBuf_candid _).bind fun _ => dirBuf_candid
  cases a with
  | ram p =>
    cases c with
    | ram q => exact Candid.ret _
    | blob id => exact Candid.ite (hscratch _ _) (keyCmpChunks_candid _ _ _ _ _)
  | blob id =>
    cases c with
    | ram q => exact Candid.ite (hscratch _ _) (keyCmpChunks_candid _ _ _ _ _)
    | blob id' => exact keyCmpChunks_candid _ _ _ _ _

theorem bktFindIn_candid (buf key : List UInt8) (fp : UInt32) (ents : List (Nat × Ent)) :
    Candid (bktFindIn cfg buf key fp ents) := by
  induction ents with
  | nil => exact Candid.fail _
  | cons x ents ih =>
    exact Candid.ite ih (Candid.ite (Candid.ite ih (Candid.ret _)) (Candid.ite ih
      ((keyCmpBytes_candid _ _ _ _).bind fun _ => Candid.ite ih (Candid.ret _))))

theorem entValue_candid (buf : List UInt8) (e : Ent) (outSz : Nat) :
    Candid (entValue buf e outSz) := by
  refine Candid.ite (Candid.ret _) (Candid.ite (Candid.ret _) (Candid.ite (Candid.fail _) ?_))
  refine (Candid.blobDbGet _ _).handed ?_ ?_
  . exact fun _ => Candid.ite (Candid.ret _) (Candid.fail _)
  . refine fun err => ⟨_, ?_, rfl⟩
    split
    . rintro ⟨⟩
    . next h => exact fun he => h (.inl he)

/-! A lookup -/

-- What kvhash_get does before it copies the value out: the bucket and the entry of the key in it.
def kvhashFind (cfg : KvCfg) (root : Nat) (key : List UInt8) : K (List UInt8 × Ent) := do
  if key.length = 0 ∨ 0xffff < key.length then Proc.fail Errno.EINVAL
  else if entLenMask < key.length then Proc.fail Errno.ENOENT
  else do
    let leaf ← resolveLeaf cfg root (cfg.hash key)
    let dir ← dirBuf
    let bid := dirChild dir leaf.idx
    if bid = 0 then Proc.fail Errno.ENOENT
    else do
      let used ← getBkt cfg bid
      let buf ← bktBuf
      let hit ← bktFind cfg buf used key (hashFp cfg (cfg.hash key))
      pure (buf, hit.2)

theorem kvhashFind_candid (key : List UInt8) : Candid (kvhashFind cfg root key) :=
  Candid.ite (Candid.fail _) (Candid.ite (Candid.fail _) ((resolveLeaf_candid _).bind fun _ =>
    dirBuf_candid.bind fun _ => Candid.ite (Candid.fail _) ((getBkt_candid _).bind fun _ =>
      bktBuf_candid.bind fun _ => (bktFindIn_candid _ _ _ _).bind fun _ => Candid.ret _)))

theorem kvhashGet_find (key : List UInt8) (outSz : Nat) :
    kvhashGet cfg root key outSz =
      kvhashFind cfg root key >>= fun x => entValue x.1 x.2 outSz := by
  have hassoc : ∀ {α β γ : Type} (x : K α) (f : α → K β) (h : β → K γ),
      (x >>= f) >>= h = x >>= fun a => f a >>= h := by
    intro α β γ x f h
    apply Subtype.ext
    funext s
    rw [Proc.bind_run, Proc.bind_run, Proc.bind_run]
    generalize x s = r
    obtain ⟨o, s'⟩ := r
    cases o <;> rfl
  have hfail : ∀ {α β : Type} (e : Errno) (h : α → K β), (Proc.fail e : K α) >>= h = Proc.fail e :=
    fun _ _ => rfl
  unfold kvhashGet kvhashFind
  split
  . rfl
  split
  . rfl
  simp only [hassoc]
  congr 1
  funext leaf
  congr 1
  funext dir
  split
  . rfl
  simp only [hassoc]
  rfl

-- A value that cannot be had is not reported as one that is not there.
theorem entValue_noent (buf : List UInt8) (e : Ent) (outSz : Nat) :
    Spec ⟨fun _ => True, fun _ h => h⟩ (fun _ => True) (entValue buf e outSz)
      ⟨fun _ _ => True, fun err _ => err ≠ Errno.ENOENT, fun _ => False⟩ := by
  refine Spec.ite (fun _ => Spec.ret fun _ _ => trivial) fun _ => ?_
  refine Spec.ite (fun _ => Spec.ret fun _ _ => trivial) fun _ => ?_
  refine Spec.ite (fun _ => Spec.fail fun _ _ => by rintro ⟨⟩) fun _ => ?_
  have hread : Spec ⟨fun _ => True, fun _ h => h⟩ (fun _ => True) (blobDbGet (entValId buf e) outSz)
      (.exits (fun _ : World KvRam => True) (fun _ => True) fun _ => False) :=
    Spec.blobDbGet (fun _ _ _ _ _ => trivial) (fun _ _ _ => trivial) (fun _ _ _ _ _ => trivial)
      fun _ _ _ _ => trivial
  refine hread.caught (fun bytes => ?_) (fun err => ?_) fun _ h => h
  . exact Spec.ite (fun _ => Spec.ret fun _ _ => trivial) fun _ => Spec.fail fun _ _ => by rintro ⟨⟩
  . refine Spec.fail fun _ _ => ?_
    split
    . rintro ⟨⟩
    . next h => exact fun he => h (.inl he)

theorem Stored.root_fits {g : Shape} {tbl : Table} {b : Blobs} {top : Nat}
    (h : Stored cfg g tbl b top) : b.size g.root ≤ cfg.maxPayload := by
  rcases h.shape.levels with ⟨hd, hfan⟩ | ⟨hd, _⟩
  . rw [Blobs.size, ← h.one_level hd, h.leaf_dir 0 (by omega), Option.getD_some, dirImage_length]
    exact h.leafOk.fits
  . rw [Blobs.size, h.top_dir hd, Option.getD_some, dirImage_length]
    exact (h.topOk hd).fits

end KeyValueDb.Containers

namespace KeyValueDb.Kvdb

open Containers

variable {cfg : KvdbCfg} {g : Shape} {own : Nat → Prop} {m : KvMap} {w : World KvRam} {key : CStr}
  {outSz : Nat}

-- The answer of kvdb_has, by how the lookup ends.
theorem kvdbHas_failed {e : Errno} {s : World KvRam} {root : Nat}
    (h : kvhashFind cfg.toKvCfg root key.chars w = (.err e, s)) :
    kvdbHas cfg root key w = (.ok (decide (e ≠ Errno.ENOENT)), s) := by
  rw [kvdbHas, kvhashGet_find, Proc.bind_run, Proc.attempt_run, Proc.bind_err h]
  rfl

theorem kvdbHas_found {x : List UInt8 × Ent} {s : World KvRam} {root : Nat}
    (h : kvhashFind cfg.toKvCfg root key.chars w = (.ok x, s)) :
    (kvdbHas cfg root key w).1 = .ok true := by
  have hvalue := entValue_noent x.1 x.2 0 s trivial trivial
  rw [kvdbHas, kvhashGet_find, Proc.bind_run, Proc.attempt_run, Proc.bind_ok h]
  generalize entValue x.1 x.2 0 s = r at hvalue
  obtain ⟨o, s'⟩ := r
  cases o with
  | ok f => rfl
  | err e =>
    have he : e ≠ Errno.ENOENT := hvalue
    simp only [Proc.caught, Proc.step, Proc.pure_run, decide_eq_true he]
  | cut => exact hvalue.elim

-- kvdb_get returns 0 for the key.
def Found (cfg : KvdbCfg) (root : Nat) (key : CStr) (outSz : Nat) (w : World KvRam) : Prop :=
  ∃ v, (kvdbGet cfg root key outSz w).1 = .ok (.value v)

-- The key is of a length that kvdb_get takes. If an entry has room for it, then the root of the map is
-- not longer than a payload, and none of the reads that look the key up fails.
def Answerable (cfg : KvdbCfg) (root : Nat) (key : CStr) (outSz : Nat) (w : World KvRam) : Prop :=
  0 < key.chars.length ∧ key.chars.length ≤ 0xffff ∧ (key.chars.length ≤ entLenMask →
    w.blobs.size root ≤ cfg.maxPayload ∧ ¬ ReadFailed (kvdbGet cfg root key outSz w).2.history)

theorem no_readFailed {hist : List Event} (h : hist = []) : ¬ ReadFailed hist := by
  rintro ⟨id, e, hmem⟩
  rw [h] at hmem
  cases hmem

theorem kvdbGet_find (root : Nat) : kvdbGet cfg root key outSz w =
    (kvhashFind cfg.toKvCfg root key.chars >>= fun x => entValue x.1 x.2 outSz) w := by
  rw [kvdbGet, kvhashGet_find]

section Lookups

variable {tbl : Table} {s : World KvRam} (hs : Stored cfg.toKvCfg g tbl w.blobs w.top)
  (hw : w.history = []) (hlens : ¬ (key.chars.length = 0 ∨ 0xffff < key.chars.length))
  (htell : telling.holds (kvdbGet cfg g.root key outSz w).2)

include hs hw hlens htell

-- A lookup that fails has found out that the key is not there, or a read of it has failed.
theorem lookup_failed {e : Errno} (h : kvhashFind cfg.toKvCfg g.root key.chars w = (.err e, s)) :
    e = Errno.ENOENT ∧ ¬ ReadFailed s.history ∨ e ≠ Errno.ENOENT ∧ ReadFailed s.history := by
  have hcandid := (@kvhashFind_candid cfg.toKvCfg g.root) key.chars [] w hw
  have hpost := kvhashGet_spec (fun _ h => h) hs key.chars outSz w (sees_self w) htell
  rw [← kvdbGet, kvdbGet_find, Proc.bind_err h] at hpost
  rw [kvdbGet_find, Proc.bind_err h] at htell
  rw [h] at hcandid
  obtain ⟨_, ⟨rfl, _⟩ | hf | ⟨_, hno⟩⟩ := hpost
  . exact .inl ⟨rfl, no_readFailed ((hcandid htell).resolve_right fun hne => hne rfl)⟩
  . exact .inr ⟨hf.noent, hf.read⟩
  . exact absurd hno hlens

-- A value that was found is handed out, unless a read of it fails.
theorem lookup_found {x : List UInt8 × Ent}
    (hlarge : ∀ v, tbl.map cfg.toKvCfg g key.chars = some v → v.length ≤ outSz)
    (h : kvhashFind cfg.toKvCfg g.root key.chars w = (.ok x, s)) :
    Found cfg g.root key outSz w ↔ ¬ ReadFailed (kvdbGet cfg g.root key outSz w).2.history := by
  have hcandid := (@kvhashFind_candid cfg.toKvCfg g.root) key.chars [] w hw
  have hpost := kvhashGet_spec (fun _ h => h) hs key.chars outSz w (sees_self w) htell
  rw [← kvdbGet, kvdbGet_find, Proc.bind_ok h] at hpost
  rw [kvdbGet_find, Proc.bind_ok h] at htell
  rw [Found, kvdbGet_find, Proc.bind_ok h]
  rw [h] at hcandid
  have hsame : s.history = [] := hcandid (telling.anti ((entValue x.1 x.2 outSz).grows s) htell)
  have hvalue := entValue_candid x.1 x.2 outSz [] s hsame htell
  have hnoent := entValue_noent x.1 x.2 outSz s trivial trivial
  generalize entValue x.1 x.2 outSz s = r at hpost hvalue hnoent
  obtain ⟨o, s'⟩ := r
  cases o with
  | ok f =>
    obtain ⟨⟨v, hv, rfl⟩, _⟩ := hpost
    refine iff_of_true ⟨v, ?_⟩ (no_readFailed hvalue)
    rw [fetched, if_neg (Nat.not_lt.mpr (hlarge v hv))]
  | err e =>
    obtain ⟨_, ⟨rfl, _⟩ | hf | ⟨_, hno⟩⟩ := hpost
    . exact absurd rfl hnoent
    . exact iff_of_false (by rintro ⟨v, ⟨⟩⟩) fun hno => hno hf.read
    . exact absurd hno hlens
  | cut => exact hpost.elim

end Lookups

theorem has_iff_found (hm : MapAt cfg.toKvCfg g own m w.blobs w.top) (hw : w.history = [])
    (hlarge : ∀ v, m key.chars = some v → v.length ≤ outSz)
    (htell : telling.holds (kvdbGet cfg g.root key outSz w).2) :
    ((kvdbHas cfg g.root key w).1 = .ok true ↔ Found cfg g.root key outSz w) ↔
      Answerable cfg g.root key outSz w := by
  -- where the lookup fails so does kvdb_get, and kvdb_has is right if there is nothing to be found
  have hfailed : ∀ {e s}, kvhashFind cfg.toKvCfg g.root key.chars w = (.err e, s) →
      (((kvdbHas cfg g.root key w).1 = .ok true ↔ Found cfg g.root key outSz w) ↔
        e = Errno.ENOENT) := by
    intro e s h
    have hnot : ¬ Found cfg g.root key outSz w := by
      rintro ⟨v, hv⟩
      rw [kvdbGet_find, Proc.bind_err h] at hv
      cases hv
    rw [kvdbHas_failed h]
    simp [hnot]
  by_cases hbad : key.chars.length = 0 ∨ 0xffff < key.chars.length
  . have hfind : kvhashFind cfg.toKvCfg g.root key.chars w = (.err Errno.EINVAL, w) := by
      rw [kvhashFind, if_pos hbad]
      rfl
    rw [hfailed hfind]
    refine iff_of_false nofun fun ⟨hpos, hle, _⟩ => ?_
    omega
  by_cases hlong : entLenMask < key.chars.length
  . have hfind : kvhashFind cfg.toKvCfg g.root key.chars w = (.err Errno.ENOENT, w) := by
      rw [kvhashFind, if_neg hbad, if_pos hlong]
      rfl
    rw [hfailed hfind]
    exact iff_of_true rfl ⟨by omega, by omega, fun h => by omega⟩
  have hanswer : Answerable cfg g.root key outSz w ↔ w.blobs.size g.root ≤ cfg.maxPayload ∧
      ¬ ReadFailed (kvdbGet cfg g.root key outSz w).2.history :=
    ⟨fun h => h.2.2 (by omega), fun h => ⟨by omega, by omega, fun _ => h⟩⟩
  rw [hanswer]
  rcases hm with ⟨tbl, hstored, rfl, _⟩ | ⟨⟨⟨data, hdata, hover⟩, _⟩, _, _⟩
  . rw [and_iff_right hstored.root_fits]
    generalize hfind : kvhashFind cfg.toKvCfg g.root key.chars w = r
    obtain ⟨o, s⟩ := r
    cases o with
    | err e =>
      rw [hfailed hfind, kvdbGet_find, Proc.bind_err hfind]
      rcases lookup_failed hstored hw hbad htell hfind with ⟨rfl, hno⟩ | ⟨hne, hread⟩
      . exact iff_of_true rfl hno
      . exact iff_of_false hne fun hno => hno hread
    | ok x =>
      rw [kvdbHas_found hfind, ← lookup_found hstored hw hbad htell hlarge hfind]
      exact ⟨fun h => h.mp rfl, fun h => iff_of_true rfl h⟩
    | cut =>
      have hpost := kvhashGet_spec (fun _ h => h) hstored key.chars outSz w (sees_self w) htell
      rw [← kvdbGet, kvdbGet_find, Proc.bind_cut hfind] at hpost
      exact hpost.elim
  . have hsize : ¬ w.blobs.size g.root ≤ cfg.maxPayload := by
      rw [Blobs.size, hdata, Option.getD_some]
      omega
    have hpost : Spec telling
        (Sees w.blobs w.top (w.ram.keyInlineMax, w.ram.valInlineMax) [] [])
        (kvhashFind cfg.toKvCfg g.root key.chars)
        (refusedPost _ w.blobs w.top (w.ram.keyInlineMax, w.ram.valInlineMax) Errno.Telling) := by
      rw [kvhashFind, if_neg hbad, if_neg hlong]
      exact refused_resolveLeaf (fun _ h => h) ⟨data, hdata, hover⟩ _ _
    generalize hfind : kvhashFind cfg.toKvCfg g.root key.chars w = r at hpost
    obtain ⟨o, s⟩ := r
    rw [kvdbGet_find] at htell
    cases o with
    | err e =>
      rw [Proc.bind_err hfind] at htell
      have hrefused := hpost w (sees_self w) (by rw [hfind]; exact htell)
      rw [hfind] at hrefused
      rw [hfailed hfind]
      exact iff_of_false hrefused.1.1 fun h => hsize h.1
    | ok x =>
      rw [Proc.bind_ok hfind] at htell
      have hrefused := hpost w (sees_self w)
        (by rw [hfind]; exact telling.anti ((entValue x.1 x.2 outSz).grows s) htell)
      rw [hfind] at hrefused
      exact hrefused.elim
    | cut =>
      rw [Proc.bind_cut hfind] at htell
      have hrefused := hpost w (sees_self w) (by rw [hfind]; exact htell)
      rw [hfind] at hrefused
      exact hrefused.elim

-- The result of a call whose answer is only wrapped up.
theorem kvdbStep_result {α : Type} {t : KvdbState} {c : KvdbCall} {x : K α} {f : α → KvdbAnswer}
    (hrun : c.op.run cfg t.handles = x >>= fun a => pure (f a)) :
    (∀ a, (kvdbStep cfg t c).1.reply = .ok a ↔ ∃ v, (x (t.enter c)).1 = .ok v ∧ a = f v) ∧
      (kvdbStep cfg t c).1.events = (x (t.enter c)).2.history := by
  rw [kvdbStep, hrun, Proc.bind_run]
  generalize x (t.enter c) = r
  obtain ⟨o, s⟩ := r
  cases o with
  | ok v =>
    refine ⟨fun a => ⟨fun h => ⟨v, rfl, (Out.ok.inj h).symm⟩, ?_⟩, rfl⟩
    rintro ⟨v', hv, rfl⟩
    cases hv
    rfl
  | err e => exact ⟨fun a => ⟨by rintro ⟨⟩, by rintro ⟨_, ⟨⟩, _⟩⟩, rfl⟩
  | cut => exact ⟨fun a => ⟨by rintro ⟨⟩, by rintro ⟨_, ⟨⟩, _⟩⟩, rfl⟩

-- In every instance that a run has opened: kvdb_has agrees with what kvdb_get into a large buffer would
-- do in the same place, under the same failing reads, just if the key is answerable.
theorem kvdbHas_agrees {s : KvdbState} (h : Unused cfg s) (cs : List KvdbCall) {slot root : Nat}
    (key : CStr) {outSz : Nat} (turns : List Turn) (allocs : List (Option Nat))
    (reads : List (Option Errno)) (hp : ∀ x ∈ (runKvdb cfg s cs).1, x.Plain)
    (hslot : (runKvdb cfg s cs).2.handles slot = some root)
    (hlarge : ∀ v, kvSeen cfg.toKvCfg root (runKvdb cfg s cs).2.world key.chars = some v →
      v.length ≤ outSz)
    (htell : (kvdbStep cfg (runKvdb cfg s cs).2 ⟨.get slot key outSz, turns, allocs, reads⟩).1.Plain) :
    ((kvdbStep cfg (runKvdb cfg s cs).2 ⟨.has slot key, turns, allocs, reads⟩).1.reply =
        .ok (.present true) ↔
      ∃ v, (kvdbStep cfg (runKvdb cfg s cs).2 ⟨.get slot key outSz, turns, allocs, reads⟩).1.reply =
        .ok (.value (.value v))) ↔
      0 < key.chars.length ∧ key.chars.length ≤ 0xffff ∧ (key.chars.length ≤ entLenMask →
        (runKvdb cfg s cs).2.world.blobs.size root ≤ cfg.maxPayload ∧
        ¬ ReadFailed (kvdbStep cfg (runKvdb cfg s cs).2
          ⟨.get slot key outSz, turns, allocs, reads⟩).1.events) := by
  obtain ⟨l, hl, _, _⟩ := runKvdb_holds cs h.holds hp
  obtain ⟨hash, i, hi, rfl⟩ := hl.handled slot root hslot
  have hm := hl.inv.stored hash i hi
  generalize (runKvdb cfg s cs).2 = t at hslot hlarge htell hm
  rw [hm.seen] at hlarge
  have hhas : KvdbOp.run cfg t.handles (.has slot key) =
      kvdbHas cfg i.shape.root key >>= fun yes => pure (.present yes) := by
    simp only [KvdbOp.run, onHandle, hslot]
  have hget : KvdbOp.run cfg t.handles (.get slot key outSz) =
      kvdbGet cfg i.shape.root key outSz >>= fun f => pure (.value f) := by
    simp only [KvdbOp.run, onHandle, hslot]
  obtain ⟨hhas, _⟩ := kvdbStep_result (c := ⟨.has slot key, turns, allocs, reads⟩) hhas
  obtain ⟨hget, hevents⟩ := kvdbStep_result (c := ⟨.get slot key outSz, turns, allocs, reads⟩) hget
  have hagree := has_iff_found (w := t.enter ⟨.get slot key outSz, turns, allocs, reads⟩) hm rfl
    hlarge fun ev hev => (htell ev (hevents ▸ hev)).1
  have hpresent : (kvdbStep cfg t ⟨.has slot key, turns, allocs, reads⟩).1.reply =
      .ok (.present true) ↔
        (kvdbHas cfg i.shape.root key (t.enter ⟨.get slot key outSz, turns, allocs, reads⟩)).1 =
          .ok true := by
    rw [hhas]
    exact ⟨fun ⟨v, hv, he⟩ => by cases he; exact hv, fun hv => ⟨true, hv, rfl⟩⟩
  have hfound : (∃ v, (kvdbStep cfg t ⟨.get slot key outSz, turns, allocs, reads⟩).1.reply =
      .ok (.value (.value v))) ↔
        Found cfg i.shape.root key outSz (t.enter ⟨.get slot key outSz, turns, allocs, reads⟩) := by
    simp only [hget]
    exact ⟨fun ⟨v, f, hf, he⟩ => ⟨v, by cases he; exact hf⟩, fun ⟨v, hv⟩ => ⟨v, _, hv, rfl⟩⟩
  rw [hpresent, hfound, hevents]
  exact hagree

-- The instance of the name, with one entry.
def oneEntry : List KvdbCall :=
  [⟨.mount, [], [], []⟩, ⟨.openDb 0 liquid none, [], [], []⟩, ⟨.set 0 other [1, 2], [], [], []⟩]

theorem nil_no_nul : (0 : UInt8) ∉ [] := by decide

def emptyKey : CStr := ⟨[], nil_no_nul⟩

-- The empty key cannot be stored, and kvdb_get refuses it. kvdb_has finds it.
theorem empty_key_present :
    (runKvdb smallKvdb formattedKvdb oneEntry).2.handles 0 = some 3 ∧
      (kvdbStep smallKvdb (runKvdb smallKvdb formattedKvdb oneEntry).2
        ⟨.has 0 emptyKey, [], [], []⟩).1.reply = .ok (.present true) ∧
      (kvdbStep smallKvdb (runKvdb smallKvdb formattedKvdb oneEntry).2
        ⟨.get 0 emptyKey 1000, [], [], []⟩).1.reply = .err Errno.EINVAL ∧
      kvSeen smallMap 3 (runKvdb smallKvdb formattedKvdb oneEntry).2.world emptyKey.chars = none := by
  decide +kernel

-- The read of a bucket fails: kvdb_has says yes, and kvdb_get says -EIO.
theorem kvdbHas_agrees_other :
    ¬ ((kvdbStep smallKvdb (runKvdb smallKvdb formattedKvdb oneEntry).2
        ⟨.has 0 other, [], [], [none, some Errno.EIO]⟩).1.reply = .ok (.present true) ↔
      ∃ v, (kvdbStep smallKvdb (runKvdb smallKvdb formattedKvdb oneEntry).2
        ⟨.get 0 other 2, [], [], [none, some Errno.EIO]⟩).1.reply = .ok (.value (.value v))) := by
  have hseen : kvSeen smallMap 3 (runKvdb smallKvdb formattedKvdb oneEntry).2.world other.chars =
      some [1, 2] := by decide +kernel
  have hlarge : ∀ v, kvSeen smallMap 3 (runKvdb smallKvdb formattedKvdb oneEntry).2.world
      other.chars = some v → v.length ≤ 2 := by
    intro v hv
    rw [hseen] at hv
    cases hv
    decide
  have hslot : (runKvdb smallKvdb formattedKvdb oneEntry).2.handles 0 = some 3 := by decide +kernel
  refine (not_congr (kvdbHas_agrees formattedKvdb_unused oneEntry other [] []
    [none, some Errno.EIO] (by decide +kernel) hslot hlarge (by decide +kernel))).mpr ?_
  exact fun h => (h.2.2 (by decide)).2 (by decide +kernel)

end KeyValueDb.Kvdb
