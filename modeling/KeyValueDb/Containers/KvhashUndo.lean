import KeyValueDb.Containers.KvhashRuns

/-!
How a set fails, exactly: which write was the last that it made, what that write has left although it
failed, and what is there after the clean-up. The store is told in advance what becomes of each write.
-/

namespace KeyValueDb.Containers

variable {ρ : Type} {cfg : KvCfg} {g : Shape} {tbl : Table} {b b1 b2 b3 : Blobs}
  {top top1 top2 top3 : Nat} {lim : Nat × Nat} {dir bkt key val : List UInt8} {ts : List Turn}

/-! The plan of a set -/

-- Where a set goes: the bucket of its key, 0 if there is none yet, and how many blobs of its own it
-- binds before the commit.
structure SetPlan where
  bucket : Nat
  binds : Nat
  deriving Repr, DecidableEq

-- The number of writes before the commit, which is the bucket's or, if the bucket is new, its
-- directory's.
def SetPlan.commit (p : SetPlan) : Nat := p.binds + if p.bucket = 0 then 1 else 0

def bindsOf (p : Placement) (old : Option Replaced) : Nat :=
  (decide (p.kspill ∧ reusedKid p old = 0)).toNat + p.vspill.toNat

-- What a set finds out before it writes.
def kvhashSetPlan (cfg : KvCfg) (root : Nat) (key val : List UInt8) : K SetPlan := do
  let leaf ← resolveLeaf cfg root (cfg.hash key)
  let r ← getRam
  let canSpill := decide (3 ≤ fieldAt r.dirBuf 6 1)
  let p : Placement :=
    ⟨canSpill && decide (r.keyInlineMax < key.length),
      canSpill && decide (r.valInlineMax < val.length)⟩
  let bid := dirChild r.dirBuf leaf.idx
  if bid = 0 then pure ⟨0, bindsOf p none⟩
  else do
    let used ← getBkt cfg bid
    let buf ← bktBuf
    match ← Proc.attempt (bktFind cfg buf used key (keyFp cfg key)) with
    | .ok (_, old) =>
      let oldVid := entValId buf old
      if old.kspill = p.kspill ∧ old.vspill ∧ p.vspill ∧ old.vl = val.length then pure ⟨bid, 0⟩
      else pure ⟨bid, bindsOf p (some ⟨old.kspill, entKeyId buf old, oldVid⟩)⟩
    | .error e => if e = Errno.ENOENT then pure ⟨bid, bindsOf p none⟩ else Proc.fail e

theorem kvhashSetPlan_views (root : Nat) (key val : List UInt8) :
    Views (kvhashSetPlan cfg root key val) := by
  refine (resolveLeaf_views _).bind fun leaf => Views.getRam.bind fun r => Views.ite (Views.ret _)
    ((getBkt_views _).bind fun used => bktBuf_views.bind fun buf => ?_)
  refine (bktFindIn_views _ _ _ _).attempt.bind fun o => ?_
  cases o with
  | ok hit => exact Views.ite (Views.ret _) (Views.ret _)
  | error e => exact Views.ite (Views.ret _) (Views.fail _)

-- Where the parts of an entry go under the thresholds `lim`.
def Shape.placement (g : Shape) (lim : Nat × Nat) (key val : List UInt8) : Placement :=
  ⟨decide (3 ≤ g.version) && decide (lim.1 < key.length),
    decide (3 ≤ g.version) && decide (lim.2 < val.length)⟩

-- The value takes the place of the old one.
def Pair.InPlace (q : Pair) (p : Placement) (val : List UInt8) : Prop :=
  (decide (q.kid ≠ 0) = p.kspill ∧ decide (q.vid ≠ 0) ∧ p.vspill ∧ q.val.length = val.length)

instance (q : Pair) (p : Placement) (val : List UInt8) : Decidable (q.InPlace p val) :=
  inferInstanceAs (Decidable (_ ∧ _))

def Table.setPlan (cfg : KvCfg) (g : Shape) (tbl : Table) (lim : Nat × Nat) (key val : List UInt8) :
    SetPlan :=
  let p := g.placement lim key val
  ⟨tbl.bid (g.place cfg key),
    match (tbl.pairs (g.place cfg key)).find? (·.key = key) with
    | none => bindsOf p none
    | some q => if q.InPlace p val then 0 else bindsOf p (some q.replaced)⟩

theorem Stored.find_pair (h : Stored cfg g tbl b top) {pre post : List Pair} {q : Pair}
    (hps : tbl.pairs (g.place cfg q.key) = pre ++ q :: post) :
    (tbl.pairs (g.place cfg q.key)).find? (·.key = q.key) = some q := by
  have hcell := h.cell hps
  rw [hps, List.find?_append, List.find?_eq_none.mpr]
  . simp
  . intro r hr
    simpa using hcell.others r (List.mem_append_left _ hr)

theorem find_none (hnone : ∀ p ∈ tbl.pairs (g.place cfg key), p.key ≠ key) :
    (tbl.pairs (g.place cfg key)).find? (·.key = key) = none := by
  rw [List.find?_eq_none]
  intro r hr
  simpa using hnone r hr

theorem leafImage_version (h : g.Ok cfg) (t : Nat) (rest : List UInt8) :
    fieldAt (tbl.leafImage g t ++ rest) 6 1 = g.version := by
  have hle := h.version_le
  simp only [Table.leafImage, dirImage, List.append_assoc]
  exact dirHead_version (by simp only [kvhashVersion] at hle; omega)

-- What a set knows of its placement, from the directory and the thresholds.
theorem placement_of_ram (h : Stored cfg g tbl b top) {t : Nat} {r : KvRam}
    (hr : tbl.leafImage g t <+: r.dirBuf) (hlim : (r.keyInlineMax, r.valInlineMax) = lim)
    (key val : List UInt8) :
    (decide (3 ≤ fieldAt r.dirBuf 6 1) && decide (r.keyInlineMax < key.length)) =
        (g.placement lim key val).kspill ∧
      (decide (3 ≤ fieldAt r.dirBuf 6 1) && decide (r.valInlineMax < val.length)) =
        (g.placement lim key val).vspill := by
  obtain ⟨rest, hrest⟩ := hr
  cases hlim
  rw [← hrest, leafImage_version h.shape]
  exact ⟨rfl, rfl⟩

theorem kvhashSetPlan_spec {H : Hypothesis (World KvRam)} (hH : ∀ w, H.holds w → telling.holds w)
    (h : Stored cfg g tbl b top) (key val : List UInt8) :
    Spec H (Sees b top lim dir bkt) (kvhashSetPlan cfg g.root key val)
      (readPost b top lim [] [] (· = tbl.setPlan cfg g lim key val)) := by
  have hin := h.shape.place_in key
  rw [kvhashSetPlan]
  refine Spec.reads (resolveLeaf_spec hH h key) ?_ fun e s hs he => ⟨hs, he⟩
  rintro _ rfl
  refine Spec.ram fun r hr hlim => ?_
  have hbid : dirChild r.dirBuf (g.place cfg key).2 = tbl.bid (g.place cfg key) := by
    obtain ⟨rest, hrest⟩ := hr
    rw [← hrest, Table.leafImage, dirChild_image hin.2 (h.bid_lt hin)]
  obtain ⟨hkspill, hvspill⟩ := placement_of_ram h hr hlim key val
  simp only [hkspill, hvspill, hbid]
  refine Spec.ite (fun h0 => ?_) fun h0 => ?_
  . refine Spec.ret fun s hs => ⟨?_, hs.idle⟩
    rw [Table.setPlan, find_none (by simp [h.empty _ hin h0]), h0]
  have hsmall : (bktImage cfg (tbl.pairs (g.place cfg key))).length ≤ cfg.maxPayload := by
    rw [bktImage_length]
    exact h.small _ hin
  refine Spec.reads (getBkt_spec hH (h.bucket _ hin h0) hsmall) ?_ fun e s hs he => ⟨hs, he⟩
  rintro _ rfl
  refine Spec.bktBuf fun buf hbuf => ?_
  rw [bktImage_length]
  refine (bktFind_spec hH (h.sound _ hin) hbuf).attempt.bind ?_ (fun _ _ hf => hf.elim) fun _ hf => hf
  rintro (e | ⟨off, old⟩)
  . refine Spec.ite (fun he => Spec.ret fun s hs => ?_) fun he => Spec.fail fun s hs => ?_
    . rcases hs with ⟨_, hnone, hs⟩ | ⟨_, hf⟩
      . exact ⟨by rw [Table.setPlan, find_none hnone], hs.idle⟩
      . exact absurd he hf.noent
    . exact hs.resolve_left fun hno => he hno.1
  . refine Spec.fact ?_
    rintro ⟨pre, q, post, hps, rfl, hhit⟩
    obtain ⟨rfl, rfl⟩ := Prod.mk.inj hhit
    have hshow := shows_split (hps ▸ hbuf)
    have hfits := (h.sound _ hin q (by simp [hps])).toFits
    simp only [Nat.zero_add, hshow.valId hfits, hshow.keyId hfits]
    refine Spec.ite (fun hsame => ?_) fun hno => ?_
    . refine Spec.ret fun s hs => ⟨?_, hs.idle⟩
      rw [Table.setPlan, h.find_pair hps]
      exact congrArg (SetPlan.mk _) (if_pos hsame).symm
    . refine Spec.ret fun s hs => ⟨?_, hs.idle⟩
      rw [Table.setPlan, h.find_pair hps]
      exact congrArg (SetPlan.mk _) (if_neg hno).symm

/-! What becomes of the writes -/

-- No write that failed has taken effect.
def Unlanded (hist : List Event) : Prop := ∀ ev ∈ hist, ev.landedError = false

-- The deletes succeed, and what fails does not answer as if it had found nothing.
def releasing : Hypothesis (World ρ) where
  holds w := ∀ ev ∈ w.history, ev.Telling ∧ ∀ e, ev = .edit e → e.data = none → e.turn = .done
  anti h hh ev hev := hh ev (List.IsSuffix.subset h hev)

theorem releasing_telling (w : World ρ) (h : releasing.holds w) : telling.holds w :=
  fun ev hev => (h ev hev).1

-- The writes still to come meet `ts`.
structure Faces (cfg : StoreCfg) (b : Blobs) (top : Nat) (lim : Nat × Nat) (dir bkt : List UInt8)
    (ts : List Turn) (s : World KvRam) : Prop extends Sees b top lim dir bkt s where
  turns : s.turns = ts
  unlanded : Unlanded s.history
  fit : s.Fit cfg

namespace Faces

variable {s : World KvRam} {scfg : StoreCfg}

theorem idle (h : Faces scfg b top lim dir bkt ts s) : Faces scfg b top lim [] [] ts s :=
  ⟨h.toSees.idle, h.turns, h.unlanded, h.fit⟩

theorem weaken (h : Faces scfg b top lim dir bkt ts s) {dir' bkt' : List UInt8} (hd : dir' <+: dir)
    (hb : bkt' <+: bkt) : Faces scfg b top lim dir' bkt' ts s :=
  ⟨h.toSees.weaken hd hb, h.turns, h.unlanded, h.fit⟩

end Faces

-- Only the exits with an error matter.
def failing {α : Type} (ok : α → World KvRam → Prop) (err : World KvRam → Prop) :
    Post (World KvRam) Errno α := ⟨ok, fun _ => err, fun _ => True⟩

theorem Spec.fails {α : Type} {H : Hypothesis (World KvRam)} {P E E' : World KvRam → Prop} {x : K α}
    {ok : α → World KvRam → Prop} (hx : Spec H P x (failing (fun _ _ => False) E))
    (hE : ∀ s, E s → E' s) : Spec H P x (failing ok E') :=
  hx.conseq (fun _ h => h) (fun _ _ h => h.elim) (fun _ => hE) fun _ h => h

-- What is read uses up no turn.
theorem unturned_reads (scfg : StoreCfg) (ts : List Turn) :
    Reads (fun s : World KvRam => s.turns = ts ∧ Unlanded s.history ∧ s.Fit scfg) := by
  have hfit := (fit_calls scfg : Calls scfg (World.Fit scfg : World KvRam → Prop)).toReads
  refine ⟨fun s h => ⟨h.1, h.2.1, hfit.done s h.2.2⟩,
    fun s id e he h => ⟨h.1, ?_, hfit.failed s id e he h.2.2⟩,
    fun s r h => ⟨h.1, h.2.1, hfit.ram s r h.2.2⟩⟩
  intro ev hev
  rcases List.mem_cons.mp hev with rfl | hev
  . rfl
  . exact h.2.1 ev hev

theorem Spec.viewing {α : Type} {dir' bkt' : List UInt8} {φ : α → Prop} {x : K α} (hv : Views x)
    (hx : Spec releasing (Sees b top lim dir bkt) x (readPost b top lim dir' bkt' φ))
    {scfg : StoreCfg} :
    Spec releasing (Faces scfg b top lim dir bkt ts) x
      (failing (fun a s => φ a ∧ Faces scfg b top lim dir' bkt' ts s)
        (Faces scfg b top lim [] [] ts)) := by
  refine (hx.both ((hv _ (unturned_reads scfg ts)).spec _)).conseq
    (fun s hs => ⟨hs.toSees, hs.turns, hs.unlanded, hs.fit⟩) ?_ ?_ fun _ _ => trivial
  . exact fun a s h => ⟨h.1.1, h.1.2, h.2.1, h.2.2.1, h.2.2.2⟩
  . exact fun e s h => ⟨h.1.1, h.2.1, h.2.2.1, h.2.2.2⟩

/-! One write -/

theorem Faces.edited {s : World KvRam} {scfg : StoreCfg} {id : Nat} {data : Option (List UInt8)}
    {t : Turn} (h : Faces scfg b top lim dir bkt ts s) (ht : t = .done)
    (hlen : (data.getD []).length ≤ scfg.maxObject)
    (hfits : s.used + (data.getD []).length ≤ scfg.partition + s.blobs.size id) :
    Faces scfg (Function.update b id data) top lim dir bkt ts.tail (s.edit id data t) := by
  subst ht
  refine ⟨h.toSees.edited id data rfl, congrArg List.tail h.turns, ?_, h.fit.edit hlen fun _ => hfits⟩
  intro ev hev
  rcases List.mem_cons.mp hev with rfl | hev
  . rfl
  . exact h.unlanded ev hev

theorem Faces.unedited {s : World KvRam} {scfg : StoreCfg} {id : Nat} {data : Option (List UInt8)}
    {e : Errno} (h : Faces scfg b top lim dir bkt ts s)
    (hlen : (data.getD []).length ≤ scfg.maxObject) :
    Faces scfg b top lim dir bkt ts.tail (s.edit id data (.error e false)) := by
  refine ⟨h.toSees.unedited id data rfl, congrArg List.tail h.turns, ?_, h.fit.edit hlen nofun⟩
  intro ev hev
  rcases List.mem_cons.mp hev with rfl | hev
  . rfl
  . exact h.unlanded ev hev

-- The blob is there, and the payload takes the room that it has.
structure Granted (b : Blobs) (top id : Nat) (payload : List UInt8) : Prop where
  pos : id ≠ 0
  issued : id ≤ top
  same : ∃ data, b id = some data ∧ data.length = payload.length

theorem Faces.grants {s : World KvRam} {scfg : StoreCfg} {id : Nat} {payload : List UInt8}
    (h : Faces scfg b top lim dir bkt ts s) (hg : Granted b top id payload) :
    payload.length ≤ scfg.maxObject ∧
      s.used + payload.length ≤ scfg.partition + s.blobs.size id := by
  obtain ⟨data, hdata, hlen⟩ := hg.same
  have hb : s.blobs id = some data := by rw [h.blobs, hdata]
  have hsize : s.blobs.size id = data.length := by rw [Blobs.size, hb]; rfl
  have hused := h.fit.tallied.1
  have hobject := h.fit.object id data hb
  omega

-- What a write that reports an error has left.
def Missed (cfg : StoreCfg) (b : Blobs) (top : Nat) (lim : Nat × Nat) (dir bkt : List UInt8)
    (ts : List Turn) (id : Nat) (payload : List UInt8) (s : World KvRam) : Prop :=
  (∃ k ≤ 1, Faces cfg b top lim dir bkt (ts.drop k) s ∧
      (Granted b top id payload → ∃ e, ts.headD .done = .error e false)) ∨
    (∃ e, ts.headD .done = .error e true) ∧
      Sees (Function.update b id (some payload)) top lim dir bkt s ∧ s.turns = ts.tail

theorem kvUpdate_faces {H : Hypothesis (World KvRam)} (id : Nat) (payload : List UInt8) :
    Spec H (Faces cfg.toStoreCfg b top lim dir bkt ts) (kvUpdate cfg id payload)
      (failing (fun _ => Faces cfg.toStoreCfg (Function.update b id (some payload)) top lim dir bkt ts.tail)
        (Missed cfg.toStoreCfg b top lim dir bkt ts id payload)) := by
  intro s hs _
  have hturn : s.nextTurn = ts.headD .done := by rw [World.nextTurn, hs.turns]
  rcases blobDbUpdate_met cfg.toStoreCfg s id payload with ⟨hbad, hr⟩ | ⟨⟨_, _, hlen⟩, ⟨hfits, hr⟩ | ⟨hfull, hr⟩⟩
  all_goals rw [kvUpdate, hr]
  . refine .inl ⟨0, Nat.zero_le 1, hs, fun hg => ?_⟩
    have := (hs.grants hg).1
    have := hg.pos
    have := hg.issued
    have := hs.top
    omega
  . rw [hturn]
    cases ht : ts.headD .done with
    | done => exact hs.edited rfl hlen hfits
    | error e landed =>
      cases landed with
      | false =>
        refine .inl ⟨1, le_rfl, ?_, fun _ => ⟨e, ht⟩⟩
        rw [List.drop_one]
        exact hs.unedited hlen
      | true =>
        exact .inr ⟨⟨e, ht⟩, hs.toSees.edited id _ rfl, congrArg List.tail hs.turns⟩
    | cut landed => trivial
  . have hno : Granted b top id payload → ∃ e, ts.headD .done = .error e false := by
      intro hg
      have := (hs.grants hg).2
      omega
    cases ht : s.nextTurn with
    | done =>
      refine .inl ⟨1, le_rfl, ?_, hno⟩
      rw [List.drop_one]
      exact hs.unedited hlen
    | error e landed =>
      refine .inl ⟨1, le_rfl, ?_, hno⟩
      rw [List.drop_one]
      exact hs.unedited hlen
    | cut landed => trivial

/-! The writes of a set -/

theorem blobDbAllocId_faces {H : Hypothesis (World KvRam)} {scfg : StoreCfg} :
    Spec H (Faces scfg b top lim dir bkt ts) blobDbAllocId
      (failing (fun id s => id = 0 ∧ Faces scfg b top lim dir bkt ts s ∨
        (top < id ∧ id < 2 ^ 64) ∧ Faces scfg b id lim dir bkt ts s) fun _ => False) := by
  refine Spec.blobDbAllocId ?_ ?_
  . intro s gap hs hlt
    have htop : top < s.top + 1 + gap := by
      rw [hs.top]
      omega
    exact .inr ⟨⟨htop, hlt⟩, ⟨hs.blobs, rfl, hs.lim, hs.dir, hs.bkt⟩, hs.turns, hs.unlanded,
      ⟨hs.fit.tallied, hs.fit.object⟩⟩
  . intro s hs
    exact .inl ⟨rfl, ⟨hs.blobs, hs.top, hs.lim, hs.dir, hs.bkt⟩, hs.turns, hs.unlanded,
      ⟨hs.fit.tallied, hs.fit.object⟩⟩

-- What is left of a new blob whose write reports an error.
def BindMissed (cfg : StoreCfg) (b : Blobs) (top : Nat) (lim : Nat × Nat) (dir bkt : List UInt8)
    (ts : List Turn) (data : List UInt8) (s : World KvRam) : Prop :=
  (∃ top' k, k ≤ 1 ∧ Faces cfg b top' lim dir bkt (ts.drop k) s) ∨
    (∃ e, ts.headD .done = .error e true) ∧ ∃ id, top < id ∧ id < 2 ^ 64 ∧
      Sees (Function.update b id (some data)) id lim dir bkt s

theorem bindFresh_faces {H : Hypothesis (World KvRam)} (data : List UInt8) {α : Type} {f : Nat → K α}
    {Q : Post (World KvRam) Errno α}
    (hok : ∀ id, top < id → id < 2 ^ 64 →
      Spec H (Faces cfg.toStoreCfg (Function.update b id (some data)) id lim dir bkt ts.tail) (f id) Q)
    (herr : ∀ e s, BindMissed cfg.toStoreCfg b top lim dir bkt ts data s → Q.err e s)
    (hcut : ∀ s, Q.cut s) :
    Spec H (Faces cfg.toStoreCfg b top lim dir bkt ts)
      (blobDbAllocId >>= fun fresh =>
        if fresh = 0 then Proc.fail Errno.EIO
        else do
          kvUpdate cfg fresh data
          f fresh) Q := by
  refine blobDbAllocId_faces.bind (fun id => ?_) (fun _ _ h => h.elim) fun s _ => hcut s
  refine Spec.ite (fun h0 => ?_) fun h0 => ?_
  . refine Spec.fail fun s hs => herr _ s (.inl ?_)
    rcases hs with ⟨_, hs⟩ | ⟨⟨hid, _⟩, _⟩
    . exact ⟨top, 0, Nat.zero_le 1, hs⟩
    . omega
  . refine Spec.pre (Spec.fact fun hid => ?_) (P := fun s => (top < id ∧ id < 2 ^ 64) ∧
      Faces cfg.toStoreCfg b id lim dir bkt ts s) fun s hs => hs.resolve_left fun h => h0 h.1
    refine (kvUpdate_faces id data).bind (fun _ => hok id hid.1 hid.2) ?_ fun s _ => hcut s
    rintro e s (⟨k, hk, hs, _⟩ | ⟨ht, hs, _⟩)
    . exact herr e s (.inl ⟨id, k, hk, hs⟩)
    . exact herr e s (.inr ⟨ht, id, hid.1, hid.2, hs⟩)

-- The blobs without `id`, unless it is 0.
def Blobs.freed (b : Blobs) (id : Nat) : Blobs := if id = 0 then b else Function.update b id none

theorem Blobs.freed_zero (b : Blobs) : b.freed 0 = b := rfl

theorem Blobs.freed_ne (b : Blobs) {id i : Nat} (h : i = 0 ∨ i ≠ id) : b.freed id i = b i := by
  unfold Blobs.freed
  split
  . rfl
  . exact Function.update_of_ne (by omega) _ _

theorem Blobs.freed_self (b : Blobs) {id : Nat} (h : id ≠ 0) : b.freed id id = none := by
  rw [Blobs.freed, if_neg h, Function.update_self]

-- What is deleted is what was written.
theorem Blobs.freed_update {b : Blobs} {id : Nat} (data : Option (List UInt8)) (hid : id ≠ 0)
    (hnone : b id = none) : Blobs.freed (Function.update b id data) id = b := by
  rw [Blobs.freed, if_neg hid, Function.update_idem, ← hnone, Function.update_eq_self]

theorem Blobs.freed_comm (b : Blobs) {id i : Nat} (h : i ≠ id) (data : Option (List UInt8)) :
    Blobs.freed (Function.update b i data) id = Function.update (b.freed id) i data := by
  unfold Blobs.freed
  split
  . rfl
  . exact Function.update_comm h _ _ _

section Undo

variable {I : World KvRam → Prop} (hI : ∀ s id, I s → s.nextTurn = .done → I (s.edit id none .done))

include hI

theorem releasePart_exact (id : Nat) :
    Spec releasing (fun s => s.blobs = b ∧ I s) (releasePart id)
      (failing (fun _ s => s.blobs = b.freed id ∧ I s) fun _ => False) := by
  refine Spec.ite (fun h0 => Spec.ret fun s hs => ?_) fun h0 => ?_
  . rw [h0]
    exact hs
  have hdel : Spec releasing (fun s => s.blobs = b ∧ I s) (kvDelete id)
      (failing (fun _ s => s.blobs = b.freed id ∧ I s) fun s => s.blobs = b.freed id ∧ I s) := by
    intro s hs
    rw [kvDelete]
    rcases blobDbDelete_met s id with ⟨hnone, hr⟩ | ⟨_, hr⟩
    . rw [hr]
      intro _
      refine ⟨?_, hs.2⟩
      rw [Blobs.freed, if_neg h0, ← hs.1, ← hnone, Function.update_eq_self]
    . rw [hr]
      intro hh
      -- a delete that is made succeeds
      have hdone : s.nextTurn = .done :=
        (hh (.edit ⟨id, none, s.nextTurn, s.blobs⟩) (by simp [World.edit])).2 _ rfl rfl
      rw [hdone]
      refine ⟨?_, hI s id hs.2 hdone⟩
      rw [s.edit_blobs id none rfl, hs.1, Blobs.freed, if_neg h0]
  refine hdel.attempt.bind (fun o => ?_) (fun _ _ h => h.elim) fun _ h => h
  cases o <;> exact Spec.ret fun s hs => hs

theorem setUndo_exact (vid kid : Nat) (e : Errno) :
    Spec releasing (fun s => s.blobs = b ∧ I s) (setUndo vid kid e)
      (failing (fun _ _ => False) fun s => s.blobs = (b.freed vid).freed kid ∧ I s) := by
  refine (releasePart_exact hI vid).bind (fun _ => ?_) (fun _ _ h => h.elim) fun _ h => h
  refine (releasePart_exact hI kid).bind (fun _ => ?_) (fun _ _ h => h.elim) fun _ h => h
  exact Spec.fail fun s hs => hs

end Undo

section Parts

variable {H : Hypothesis (World KvRam)} {kept : List Pair} {old : Option Pair}

-- The id to delete if the set does not come to its commit.
def undoKid (x : Nat × Bool) : Nat := if x.2 then x.1 else 0

theorem setKeyBlob_faces (h : Stored cfg g tbl b top) (hfree : ∀ id, top < id → b id = none)
    (hcell : Cell cfg g tbl key kept old) (p : Placement) :
    Spec H (Faces cfg.toStoreCfg b top lim dir bkt ts)
      (setKeyBlob cfg key p (old.map Pair.replaced))
      (failing (fun x s => ∃ b1 top1, (NewKey g tbl b top key p.kspill x.1 x.2 b1 top1 ∧
          b1.freed (undoKid x) = b ∧ (∀ id, top1 < id → b1 id = none) ∧
          x.2 = decide (p.kspill ∧ reusedKid p (old.map Pair.replaced) = 0)) ∧
          Faces cfg.toStoreCfg b1 top1 lim dir bkt (ts.drop x.2.toNat) s)
        fun s => (p.kspill ∧ reusedKid p (old.map Pair.replaced) = 0) ∧
          BindMissed cfg.toStoreCfg b top lim dir bkt ts key s) := by
  rw [setKeyBlob]
  refine Spec.ite (fun hnew => ?_) fun hno => ?_
  . refine bindFresh_faces key ?_ (fun e s hs => ⟨hnew, hs⟩) fun _ => trivial
    intro id hid hlt
    refine Spec.ret fun s hs => ⟨Function.update b id (some key), id,
      ⟨?_, ?_, ?_, (decide_eq_true hnew).symm⟩, ?_⟩
    . rw [hnew.1]
      exact NewKey.bound hid hlt
    . exact Blobs.freed_update _ (by omega) (hfree id hid)
    . intro i hi
      rw [Function.update_of_ne (by omega)]
      exact hfree i (by omega)
    . rwa [Bool.toNat_true, List.drop_one]
  . exact Spec.ret fun s hs =>
      ⟨b, top, ⟨hcell.newKey_old h hno, rfl, hfree, (decide_eq_false hno).symm⟩, hs⟩

theorem setValBlob_faces (hlt : top1 < 2 ^ 64) (hfree : ∀ id, top1 < id → b1 id = none)
    (val : List UInt8) (p : Placement) :
    Spec H (Faces cfg.toStoreCfg b1 top1 lim dir bkt ts) (setValBlob cfg val p)
      (failing (fun vid s => ∃ b2 top2, (NewVal b1 top1 val p.vspill vid b2 top2 ∧
          b2.freed vid = b1 ∧ ∀ id, top2 < id → b2 id = none) ∧
          Faces cfg.toStoreCfg b2 top2 lim dir bkt (ts.drop p.vspill.toNat) s)
        fun s => p.vspill ∧ BindMissed cfg.toStoreCfg b1 top1 lim dir bkt ts val s) := by
  rw [setValBlob]
  refine Spec.ite (fun hspill => ?_) fun hspill => ?_
  . refine bindFresh_faces val ?_ (fun e s hs => ⟨hspill, hs⟩) fun _ => trivial
    intro id hid hlt
    rw [hspill]
    refine Spec.ret fun s hs => ⟨Function.update b1 id (some val), id,
      ⟨NewVal.bound hid hlt, ?_, ?_⟩, ?_⟩
    . exact Blobs.freed_update _ (by omega) (hfree id hid)
    . intro i hi
      rw [Function.update_of_ne (by omega)]
      exact hfree i (by omega)
    . rwa [Bool.toNat_true, List.drop_one]
  . rw [Bool.not_eq_true] at hspill
    rw [hspill]
    exact Spec.ret fun s hs => ⟨b1, top1, ⟨NewVal.none hlt, rfl, hfree⟩, hs⟩

namespace Faces

variable {scfg : StoreCfg} {α : Type} {Q : Post (World KvRam) Errno α}

theorem inRam {s : World KvRam} (h : Faces scfg b top lim dir bkt ts s) {dir' bkt' : List UInt8}
    {r : KvRam} (hlim : (r.keyInlineMax, r.valInlineMax) = lim) (hd : dir' <+: r.dirBuf)
    (hb : bkt' <+: r.bktBuf) : Faces scfg b top lim dir' bkt' ts (s.setRam r) :=
  ⟨⟨h.blobs, h.top, hlim, hd, hb⟩, h.turns, h.unlanded, ⟨h.fit.tallied, h.fit.object⟩⟩

theorem setDirBuf (dir' : List UInt8) {f : List UInt8 → List UInt8} {k : Unit → K α}
    (hf : ∀ buf, dir <+: buf → dir' <+: f buf) (h : Spec H (Faces scfg b top lim dir' bkt ts) (k ()) Q) :
    Spec H (Faces scfg b top lim dir bkt ts) (Containers.setDirBuf f >>= k) Q :=
  fun _ hs hh => h _ (hs.inRam hs.lim (hf _ hs.dir) hs.bkt) hh

theorem setBktBuf (bkt' : List UInt8) {f : List UInt8 → List UInt8} {k : Unit → K α}
    (hf : ∀ buf, bkt <+: buf → bkt' <+: f buf) (h : Spec H (Faces scfg b top lim dir bkt' ts) (k ()) Q) :
    Spec H (Faces scfg b top lim dir bkt ts) (Containers.setBktBuf f >>= k) Q :=
  fun _ hs hh => h _ (hs.inRam hs.lim hs.dir (hf _ hs.bkt)) hh

theorem dirBuf {k : List UInt8 → K α}
    (h : ∀ buf, dir <+: buf → Spec H (Faces scfg b top lim dir bkt ts) (k buf) Q) :
    Spec H (Faces scfg b top lim dir bkt ts) (Containers.dirBuf >>= k) Q :=
  fun s hs hh => h s.ram.dirBuf hs.dir s hs hh

theorem getRam {k : KvRam → K α}
    (h : ∀ r, dir <+: r.dirBuf → (r.keyInlineMax, r.valInlineMax) = lim →
      Spec H (Faces scfg b top lim dir bkt ts) (k r) Q) :
    Spec H (Faces scfg b top lim dir bkt ts) (Containers.getRam >>= k) Q :=
  fun s hs hh => h s.ram hs.dir hs.lim s hs hh

theorem bktBuf {k : List UInt8 → K α}
    (h : ∀ buf, bkt <+: buf → Spec H (Faces scfg b top lim dir bkt ts) (k buf) Q) :
    Spec H (Faces scfg b top lim dir bkt ts) (Containers.bktBuf >>= k) Q :=
  fun s hs hh => h s.ram.bktBuf hs.bkt s hs hh

end Faces

-- What is left of a commit that reports an error. The bucket of the cell `c` is to hold `ps`.
inductive CommitMissed (cfg : KvCfg) (g : Shape) (tbl : Table) (c : Nat × Nat) (ps : List Pair)
    (b2 : Blobs) (top2 : Nat) (lim : Nat × Nat) (ts : List Turn) : World KvRam → Prop where
  | same {s : World KvRam} {top' k : Nat} (hk : k ≤ 1)
      (hs : Faces cfg.toStoreCfg b2 top' lim [] [] (ts.drop k) s) : CommitMissed cfg g tbl c ps b2 top2 lim ts s
  | unpublished {s : World KvRam} {e : Errno} {id top' : Nat} {data : List UInt8} {ts' : List Turn}
      (h0 : tbl.bid c = 0) (turn : ts.tail.headD .done = .error e false) (hid : top2 < id)
      (hs : Faces cfg.toStoreCfg (Function.update b2 id (some data)) top' lim [] [] ts' s) :
      CommitMissed cfg g tbl c ps b2 top2 lim ts s
  | early {s : World KvRam} {e : Errno} {id : Nat} {data : List UInt8} (h0 : tbl.bid c = 0)
      (turn : ts.headD .done = .error e true) (hid : top2 < id) (hlt : id < 2 ^ 64)
      (hs : Sees (Function.update b2 id (some data)) id lim [] [] s) :
      CommitMissed cfg g tbl c ps b2 top2 lim ts s
  | late {s : World KvRam} {e : Errno} {bid top3 : Nat} {b3 : Blobs}
      (turn : (ts.drop (if tbl.bid c = 0 then 1 else 0)).headD .done = .error e true)
      (hnew : NewBucket cfg g tbl c ps b2 top2 bid b3 top3) (hs : Sees b3 top3 lim [] [] s) :
      CommitMissed cfg g tbl c ps b2 top2 lim ts s

theorem setCommit_faces (h : Stored cfg g tbl b top) {c : Nat × Nat} (hc : g.In c)
    (hgrown : Grown b top b2 top2) (np : Pair)
    (hdir : tbl.bid c = 0 → dir = dirImage kvhashDirMagic g.version 1 g.n fun i => tbl.bid (c.1, i)) :
    Spec H (Faces cfg.toStoreCfg b2 top2 lim dir (bktImage cfg kept) ts)
      (setCommit cfg ⟨tbl.leaf c.1, g.n, c.2⟩ (tbl.bid c) (bktSize kept) (np.image cfg))
      (failing (fun _ _ => True) (CommitMissed cfg g tbl c (kept ++ [np]) b2 top2 lim ts)) := by
  have hlt := hgrown.top_lt
  rw [setCommit]
  refine Faces.setBktBuf (bktImage cfg (kept ++ [np])) ?_ ?_
  . rintro _ ⟨rest, rfl⟩
    exact bktAppend_prefix cfg kept np rest
  refine Faces.bktBuf ?_
  rintro buf ⟨rest, rfl⟩
  have htake : (bktImage cfg (kept ++ [np]) ++ rest).take (bktSize kept + (np.image cfg).length) =
      bktImage cfg (kept ++ [np]) := by
    apply List.take_left'
    rw [bktImage_length, bktSize_append, np.image_length]
    simp [bktSize]
  rw [htake]
  refine Spec.ite (fun hbid => ?_) fun hbid => ?_
  . refine (kvUpdate_faces _ _).conseq (fun _ hs => hs) (fun _ _ _ => trivial) ?_ fun _ h => h
    rintro e s (⟨k, hk, hs, _⟩ | ⟨⟨e', ht⟩, hs, _⟩)
    . exact .same hk hs.idle
    . refine .late (e := e') ?_ (h.sameBucket hc hgrown hbid (kept ++ [np])) hs.idle
      rw [if_neg hbid, List.drop_zero]
      exact ht
  . have hbid : tbl.bid c = 0 := not_not.mp hbid
    refine bindFresh_faces _ ?_ ?_ fun _ => trivial
    . intro bid hid hid'
      refine Faces.setDirBuf (dirImage kvhashDirMagic g.version 1 g.n
        (Function.update (fun i => tbl.bid (c.1, i)) c.2 bid)) ?_ ?_
      . rw [hdir hbid]
        rintro _ ⟨rest, rfl⟩
        rw [dirSetChild_image hc.2]
        exact List.prefix_append _ _
      refine Faces.dirBuf ?_
      rintro _ ⟨drest, rfl⟩
      rw [List.take_left' (dirImage_length _ _ _ _ _)]
      have hleaf := h.ids _ _ (.leaf hc.1)
      have hle := hgrown.top_le
      -- the directory is there already, and is as long as it was
      have hgrant : Granted (Function.update b2 bid (some (bktImage cfg (kept ++ [np])))) bid
          (tbl.leaf c.1) (dirImage kvhashDirMagic g.version 1 g.n
            (Function.update (fun i => tbl.bid (c.1, i)) c.2 bid)) := by
        refine ⟨by omega, by omega, tbl.leafImage g c.1, ?_, ?_⟩
        . rw [Function.update_of_ne (by omega), hgrown.same _ hleaf.2, h.leaf_dir _ hc.1]
          rfl
        . rw [Table.leafImage, dirImage_length, dirImage_length]
      refine (kvUpdate_faces _ _).conseq (fun _ hs => hs) (fun _ _ _ => trivial) ?_ fun _ h => h
      rintro e s (⟨k, hk, hs, hturn⟩ | ⟨⟨e', ht⟩, hs, _⟩)
      . obtain ⟨e', ht⟩ := hturn hgrant
        exact .unpublished hbid ht hid hs.idle
      . refine .late (e := e') ?_ (h.freshBucket hc hgrown hid hid' (kept ++ [np])) hs.idle
        rw [if_pos hbid, List.drop_one]
        exact ht
    . rintro e s (⟨top', k, hk, hs⟩ | ⟨⟨e', ht⟩, id, hid, hid', hs⟩)
      . exact .same hk hs.idle
      . exact .early hbid ht hid hid' hs.idle

end Parts

/-! How a set fails -/

-- The turns from `ts` to `ts'` were those of writes that succeeded.
def Undone (ts ts' : List Turn) : Prop := ∃ d, ts' = ts.drop d ∧ ∀ t ∈ ts.take d, t = .done

theorem Undone.refl (ts : List Turn) : Undone ts ts := ⟨0, rfl, nofun⟩

theorem Undone.tail {ts ts' : List Turn} (h : Undone ts ts') (hdone : ts'.headD .done = .done) :
    Undone ts ts'.tail := by
  obtain ⟨d, rfl, hd⟩ := h
  refine ⟨d + 1, List.tail_drop, fun t ht => ?_⟩
  rw [List.take_add, List.mem_append] at ht
  rcases ht with ht | ht
  . exact hd t ht
  . cases hts : ts.drop d with
    | nil =>
      rw [hts] at ht
      cases ht
    | cons t' rest =>
      rw [hts] at ht hdone
      obtain rfl : t = t' := by simpa using ht
      exact hdone

-- An entry is committed, but of its own blobs one at least is gone.
def Broken (cfg : KvCfg) (g : Shape) (tbl : Table) (b : Blobs) (top : Nat) (c : Nat × Nat)
    (s : World KvRam) : Prop :=
  ∃ bid ps top3 b3 q, Commit cfg g tbl c bid ps top top3 b b3 ∧ q ∈ ps ∧
    (∃ id, id ≠ 0 ∧ (id = q.kid ∨ id = q.vid) ∧ s.blobs id = none) ∧
    ∀ id, s.blobs id = b3 id ∨ id ≠ 0 ∧ (id = q.kid ∨ id = q.vid)

-- Where a set with the plan `plan` has stopped, with the error of a write or before it.
inductive SetFailed (cfg : KvCfg) (g : Shape) (tbl : Table) (b : Blobs) (top : Nat) (lim : Nat × Nat)
    (m' : KvMap) (c : Nat × Nat) (plan : SetPlan) (ts : List Turn) : World KvRam → Prop where
  -- after `k` writes, with nothing left of them
  | back {s : World KvRam} {k : Nat} (hk : k ≤ plan.commit ∨ plan.bucket ≠ 0) (hb : s.blobs = b)
      (hun : Unlanded s.history) (ht : Undone (ts.drop k) s.turns) :
      SetFailed cfg g tbl b top lim m' c plan ts s
  -- at the directory, with the new bucket left
  | unpublished {s : World KvRam} {e : Errno} {id : Nat} {data : List UInt8} (h0 : plan.bucket = 0)
      (turn : (ts.drop plan.commit).headD .done = .error e false) (hid : top < id)
      (hb : s.blobs = Function.update b id (some data)) (hun : Unlanded s.history) :
      SetFailed cfg g tbl b top lim m' c plan ts s
  -- at a write before the commit that has taken effect
  | early {s : World KvRam} {e : Errno} {j : Nat} (hj : j < plan.commit)
      (turn : (ts.drop j).headD .done = .error e true) (hg : GrownTo b top lim [] [] s) :
      SetFailed cfg g tbl b top lim m' c plan ts s
  -- at the commit, which has taken effect
  | whole {s : World KvRam} {e : Errno} (h0 : plan.binds = 0)
      (turn : (ts.drop plan.commit).headD .done = .error e true)
      (ht : Turned cfg g tbl b top lim m' s) : SetFailed cfg g tbl b top lim m' c plan ts s
  | broken {s : World KvRam} {e : Errno} (h0 : plan.binds ≠ 0)
      (turn : (ts.drop plan.commit).headD .done = .error e true)
      (hb : Broken cfg g tbl b top c s) : SetFailed cfg g tbl b top lim m' c plan ts s

section Failed

variable {kept : List Pair} {old : Option Pair} {m' : KvMap} {c : Nat × Nat} {plan : SetPlan}

theorem Faces.back {s : World KvRam} {scfg : StoreCfg}
    (hs : Faces scfg b top1 lim dir bkt ts s) :
    SetFailed cfg g tbl b top lim m' c plan ts s :=
  .back (k := 0) (.inl (Nat.zero_le _)) hs.blobs hs.unlanded (hs.turns ▸ Undone.refl ts)

-- The clean-up after a write that has not taken effect.
theorem setUndo_faces {scfg : StoreCfg} {k : Nat} (vid kid : Nat) (e : Errno) :
    Spec releasing (Faces scfg b1 top1 lim dir bkt (ts.drop k)) (setUndo vid kid e)
      (failing (fun _ _ => False) fun s => s.blobs = (b1.freed vid).freed kid ∧
        Unlanded s.history ∧ Undone (ts.drop k) s.turns) := by
  refine (setUndo_exact (I := fun s => Unlanded s.history ∧ Undone (ts.drop k) s.turns) ?_ vid kid
    e).pre fun s hs => ⟨hs.blobs, hs.unlanded, hs.turns ▸ Undone.refl _⟩
  intro s id h hdone
  refine ⟨fun ev hev => ?_, h.2.tail hdone⟩
  rcases List.mem_cons.mp hev with rfl | hev
  . rfl
  . exact h.1 ev hev

-- The clean-up after a write that has.
theorem setUndo_sees (vid kid : Nat) (e : Errno) :
    Spec releasing (Sees b1 top1 lim dir bkt) (setUndo vid kid e)
      (failing (fun _ _ => False) (Sees ((b1.freed vid).freed kid) top1 lim [] [])) := by
  refine (setUndo_exact (I := fun s => s.top = top1 ∧ (s.ram.keyInlineMax, s.ram.valInlineMax) = lim)
    (fun s id h _ => h) vid kid e).conseq (fun s hs => ⟨hs.blobs, hs.top, hs.lim⟩) (fun _ _ h => h) ?_
    fun _ h => h
  exact fun e s hs => ⟨hs.1, hs.2.1, hs.2.2, List.nil_prefix, List.nil_prefix⟩

theorem releasePart_returns (id : Nat) :
    Spec releasing (fun _ => True) (releasePart id) (failing (fun _ _ => True) fun _ => False) := by
  refine Spec.ite (fun _ => Spec.ret fun _ _ => trivial) fun _ => ?_
  refine (Spec.run (kvDelete id)).attempt.bind (fun o => ?_) (fun _ _ h => h.elim) fun _ _ => trivial
  exact Spec.ret fun _ _ => trivial

theorem setRelease_returns (old : Option Replaced) (kid : Nat) :
    Spec releasing (fun _ => True) (setRelease old kid) (failing (fun _ _ => True) fun _ => False) := by
  refine Spec.bind (Q := failing (fun _ _ => True) fun _ => False) ?_
    (fun _ => releasePart_returns _) (fun _ _ h => h) fun _ h => h
  unfold Proc.when
  exact Spec.ite (fun _ => releasePart_returns _) fun _ => Spec.ret fun _ _ => trivial

theorem Grown.freed (h : Grown b top b1 top1) {id : Nat} (hid : id = 0 ∨ top < id) :
    Grown b top (b1.freed id) top1 := by
  unfold Blobs.freed
  split
  . exact h
  . next h0 => exact h.update (hid.resolve_left h0) none

theorem setEntry_faces (h : Stored cfg g tbl b top) (hfree : ∀ id, top < id → b id = none)
    (hcell : Cell cfg g tbl key kept old) (p : Placement)
    (hklt : key.length < 2 ^ 15) (hpos : 0 < key.length) (hvlt : val.length < 2 ^ 15)
    (hdir : tbl.bid (g.place cfg key) = 0 → dir =
      dirImage kvhashDirMagic g.version 1 g.n fun i => tbl.bid ((g.place cfg key).1, i)) :
    Spec releasing (Faces cfg.toStoreCfg b top lim dir (bktImage cfg kept) ts)
      (setEntry cfg ⟨tbl.leaf (g.place cfg key).1, g.n, (g.place cfg key).2⟩ key val p
        (tbl.bid (g.place cfg key)) (bktSize kept) (old.map Pair.replaced))
      (failing (fun _ _ => True) (SetFailed cfg g tbl b top lim
        (Function.update (tbl.map cfg g) key (some val)) (g.place cfg key)
        ⟨tbl.bid (g.place cfg key), bindsOf p (old.map Pair.replaced)⟩ ts)) := by
  have hc := h.shape.place_in key
  have hcommit : ∀ {n : Nat}, n ≤ bindsOf p (old.map Pair.replaced) →
      n ≤ SetPlan.commit ⟨tbl.bid (g.place cfg key), bindsOf p (old.map Pair.replaced)⟩ :=
    fun hn => hn.trans (Nat.le_add_right _ _)
  rw [setEntry]
  refine Spec.ite (fun _ => Spec.fail fun s hs => hs.back) fun hroom => ?_
  refine (setKeyBlob_faces h hfree hcell p).bind ?_ ?_ fun _ h => h
  rotate_left
  . -- no key blob
    rintro e s ⟨hnew, ⟨top', k, hk, hs⟩ | ⟨⟨e', ht⟩, id, hid, hlt, hs⟩⟩
    all_goals
      have hbinds : 1 ≤ bindsOf p (old.map Pair.replaced) := by
        simp only [bindsOf, decide_eq_true hnew, Bool.toNat_true]
        omega
    . refine .back (k := k) (.inl (hk.trans (hcommit hbinds))) hs.blobs hs.unlanded ?_
      rw [hs.turns]
      exact Undone.refl _
    . refine .early (j := 0) (hcommit hbinds) ht ⟨_, id, ?_, hs.idle⟩
      exact Grown.update ⟨hid.le, hlt, fun _ _ => rfl⟩ hid _
  rintro ⟨kid, fr⟩
  dsimp only
  refine Spec.given fun b1 => Spec.given fun top1 => Spec.fact ?_
  rintro ⟨hk, hfreed1, hfree1, hfr⟩
  have hkundo : undoKid (kid, fr) = 0 ∨ top < undoKid (kid, fr) := hk.key_new
  have hbinds : bindsOf p (old.map Pair.replaced) = fr.toNat + p.vspill.toNat := by
    rw [bindsOf, ← hfr]
  refine (setValBlob_faces hk.grown.top_lt hfree1 val p).attempt.bind ?_ (fun _ _ hf => hf.elim)
    fun _ h => h
  rintro (e | vid)
  . -- no value blob
    refine Spec.fact fun hspill => ?_
    rw [hspill, Bool.toNat_true] at hbinds
    refine Spec.either ?_ (Spec.fact ?_)
    . refine Spec.given fun top' => Spec.given fun k => Spec.fact fun hk1 => ?_
      rw [List.drop_drop]
      refine Spec.fails (setUndo_faces 0 _ e) ?_
      rintro s ⟨hb, hun, ht⟩
      exact .back (k := fr.toNat + k) (.inl (hcommit (by omega))) (hb.trans hfreed1) hun ht
    . rintro ⟨e', ht⟩
      refine Spec.given fun id => Spec.fact fun hid => Spec.fact fun hlt => ?_
      refine Spec.fails (setUndo_sees 0 _ e) fun s hs => ?_
      refine .early (j := fr.toNat) (hcommit (by omega)) ht ⟨_, id, ?_, hs⟩
      have hgrown : Grown b top (Function.update b1 id (some val)) id :=
        hk.grown.trans (Grown.update ⟨hid.le, hlt, fun _ _ => rfl⟩ hid _)
      exact hgrown.freed hkundo
  refine Spec.given fun b2 => Spec.given fun top2 => Spec.fact ?_
  rintro ⟨hv, hfreed2, hfree2⟩
  have himage : entBytes key val p (keyFp cfg key) kid vid =
      (Pair.mk key val kid vid).image cfg := by
    rw [Pair.image, hk.placement hv]
  have hgrown := hk.grown.trans hv.grown
  show Spec releasing _ (Proc.attempt (setCommit cfg _ _ _ (entBytes key val p (keyFp cfg key) kid vid)) >>= _) _
  rw [himage, List.drop_drop, ← hbinds]
  refine (setCommit_faces h hc hgrown _ hdir).attempt.bind ?_ (fun _ _ hf => hf.elim) fun _ h => h
  rintro (e | u)
  rotate_left
  . exact (setRelease_returns _ _).conseq (fun _ hs => hs) (fun _ _ h => h) (fun _ _ h => h.elim)
      fun _ h => h
  have hvundo := hk.val_new hv
  have hnewcommit : ∀ {bid b3 top3}, NewBucket cfg g tbl (g.place cfg key)
      (kept ++ [⟨key, val, kid, vid⟩]) b2 top2 bid b3 top3 →
      Commit cfg g tbl (g.place cfg key) bid (kept ++ [⟨key, val, kid, vid⟩]) top top3 b b3 :=
    fun hnew => hcell.commit h hk hv (hk.fits h hv hpos hklt hvlt) (hk.small hv hroom) hnew
  have hvle : vid ≤ top2 := by
    by_cases h0 : vid = 0
    . omega
    . exact (hv.origin h0).2
  have hkle : undoKid (kid, fr) ≤ top2 := by
    cases fr with
    | false => exact Nat.zero_le _
    | true =>
      have := hv.grown.top_le
      rcases hk.origin (hk.fresh rfl) with ⟨hf, _⟩ | ⟨_, _, hle⟩
      . cases hf
      . exact hle.trans this
  show Spec releasing _ (setUndo vid (undoKid (kid, fr)) e) _
  intro s hs
  cases hs with
  | same hk1 hs =>
    rw [List.drop_drop] at hs
    refine Spec.fails (setUndo_faces vid (undoKid (kid, fr)) e) ?_ s hs
    rintro s ⟨hb, hun, ht⟩
    refine .back ?_ (by rw [hb, hfreed2, hfreed1]) hun ht
    simp only [SetPlan.commit]
    split <;> omega
  | @unpublished e1 id top' data ts' h0 turn hid hs =>
    refine Spec.fails (setUndo_faces vid (undoKid (kid, fr)) e) ?_ s (ts'.drop_zero.symm ▸ hs)
    rintro s ⟨hb, hun, _⟩
    have hleft : s.blobs = Function.update b id (some data) := by
      rw [hb, Blobs.freed_comm _ (by omega), Blobs.freed_comm _ (by omega), hfreed2, hfreed1]
    refine .unpublished h0 (e := e1) ?_ (hgrown.top_le.trans_lt hid) hleft hun
    simp only [SetPlan.commit, h0, if_true, ← List.tail_drop]
    exact turn
  | @early e1 id data h0 turn hid hlt hs =>
    refine Spec.fails (setUndo_sees vid (undoKid (kid, fr)) e) (fun s hs => ?_) s hs
    refine .early (j := bindsOf p (old.map Pair.replaced)) ?_ turn ⟨_, id, ?_, hs⟩
    . simp only [SetPlan.commit, h0, if_true]
      omega
    . have hgrown' : Grown b top (Function.update b2 id (some data)) id :=
        hgrown.trans (Grown.update ⟨hid.le, hlt, fun _ _ => rfl⟩ hid _)
      exact (hgrown'.freed hvundo).freed hkundo
  | @late e1 bid top3 b3 turn hnew hs =>
    rw [List.drop_drop] at turn
    refine Spec.fails (setUndo_sees vid (undoKid (kid, fr)) e) (fun s hs => ?_) s hs
    by_cases hb0 : bindsOf p (old.map Pair.replaced) = 0
    . refine .whole hb0 turn ?_
      have hvid : vid = 0 := by
        by_contra hne
        have hsp := hv.spill
        rw [decide_eq_true hne] at hsp
        rw [← hsp, Bool.toNat_true] at hbinds
        omega
      have hfr0 : fr = false := by
        cases fr with
        | false => rfl
        | true =>
          rw [Bool.toNat_true] at hbinds
          omega
      subst hvid hfr0
      exact (hnewcommit hnew).turned h (hcell.map_set h (hnewcommit hnew)) hs
    . refine .broken hb0 turn ⟨bid, _, top3, b3, ⟨key, val, kid, vid⟩, hnewcommit hnew, by simp, ?_, ?_⟩
      . rw [hs.blobs]
        by_cases h0 : vid = 0
        . -- it has a key blob of its own then
          have hspill : p.vspill = false := by
            rw [← hv.spill, h0]
            rfl
          have hfr1 : fr = true := by
            cases fr with
            | true => rfl
            | false =>
              rw [hspill] at hbinds
              exact absurd hbinds hb0
          subst hfr1
          exact ⟨kid, hk.fresh rfl, .inl rfl, Blobs.freed_self _ (hk.fresh rfl)⟩
        . refine ⟨vid, h0, .inr rfl, ?_⟩
          by_cases he : vid = undoKid (kid, fr)
          . rw [← he]
            exact Blobs.freed_self _ h0
          . rw [Blobs.freed_ne _ (.inr he)]
            exact Blobs.freed_self _ h0
      . intro id
        rw [hs.blobs]
        by_cases h0 : id ≠ 0 ∧ (id = kid ∨ id = vid)
        . exact .inr h0
        . left
          have hk0 : id = 0 ∨ id ≠ undoKid (kid, fr) := by
            cases fr with
            | false => exact or_not
            | true =>
              simp only [undoKid, if_true]
              omega
          rw [Blobs.freed_ne _ hk0, Blobs.freed_ne _ (by omega)]

-- What a procedure that only reads finds, in the middle of a set.
theorem Spec.finds {α β : Type} {scfg : StoreCfg} {dir' bkt' : List UInt8} {φ : α → Prop} {x : K α}
    {f : α → K β} {ok : β → World KvRam → Prop} (hv : Views x)
    (hx : Spec releasing (Sees b top lim dir bkt) x (readPost b top lim dir' bkt' φ))
    (hf : ∀ a, φ a → Spec releasing (Faces scfg b top lim dir' bkt' ts) (f a)
      (failing ok (SetFailed cfg g tbl b top lim m' c plan ts))) :
    Spec releasing (Faces scfg b top lim dir bkt ts) (x >>= f)
      (failing ok (SetFailed cfg g tbl b top lim m' c plan ts)) :=
  (Spec.viewing hv hx).bind (fun a => Spec.fact (hf a)) (fun _ _ hs => hs.back) fun _ h => h

-- What was looked up is there or is not, or a read has failed.
theorem bktFind_faces {scfg : StoreCfg} {buf : List UInt8} {ps : List Pair} (hps : ∀ p ∈ ps, p.Sound b)
    (hbuf : bktImage cfg ps <+: buf) :
    Spec releasing (Faces scfg b top lim dir bkt ts) (bktFind cfg buf (bktSize ps) key (keyFp cfg key))
      ⟨fun hit s => (∃ pre p post, ps = pre ++ p :: post ∧ p.key = key ∧
            hit = (0 + bktSize pre, p.ent (0 + bktSize pre))) ∧ Faces scfg b top lim [] bkt ts s,
        fun e s => e = Errno.ENOENT ∧ (∀ p ∈ ps, p.key ≠ key) ∧ Faces scfg b top lim [] bkt ts s ∨
          e ≠ Errno.ENOENT ∧ Faces scfg b top lim [] [] ts s,
        fun _ => True⟩ := by
  have hkeep : Maintains (fun s : World KvRam => s.turns = ts ∧ Unlanded s.history ∧ s.Fit scfg)
      (bktFind cfg buf (bktSize ps) key (keyFp cfg key)) :=
    bktFindIn_views _ _ _ _ _ (unturned_reads scfg ts)
  refine ((bktFind_spec releasing_telling hps hbuf).both (hkeep.spec _)).conseq
    (fun s hs => ⟨hs.toSees, hs.turns, hs.unlanded, hs.fit⟩) ?_ ?_ fun _ _ => trivial
  . exact fun a s h => ⟨h.1.1, h.1.2, h.2.1, h.2.2.1, h.2.2.2⟩
  . rintro e s ⟨⟨he, hnone, hs⟩ | ⟨hs, hf⟩, ht, hun, hfit⟩
    . exact .inl ⟨he, hnone, hs, ht, hun, hfit⟩
    . exact .inr ⟨hf.noent, hs, ht, hun, hfit⟩

theorem setInBucket_faces (h : Stored cfg g tbl b top) (hfree : ∀ id, top < id → b id = none)
    (hpos : 0 < key.length) (hklt : key.length < 2 ^ 15) (hvlt : val.length < 2 ^ 15)
    (hbid : tbl.bid (g.place cfg key) ≠ 0) :
    Spec releasing (Faces cfg.toStoreCfg b top lim dir bkt ts)
      (setInBucket cfg ⟨tbl.leaf (g.place cfg key).1, g.n, (g.place cfg key).2⟩ key val
        (g.placement lim key val) (tbl.bid (g.place cfg key)))
      (failing (fun _ _ => True) (SetFailed cfg g tbl b top lim
        (Function.update (tbl.map cfg g) key (some val)) (g.place cfg key)
        (tbl.setPlan cfg g lim key val) ts)) := by
  have hin := h.shape.place_in key
  have hsmall : (bktImage cfg (tbl.pairs (g.place cfg key))).length ≤ cfg.maxPayload := by
    rw [bktImage_length]
    exact h.small _ hin
  rw [setInBucket]
  refine Spec.finds (getBkt_views _)
    (getBkt_spec releasing_telling (h.bucket _ hin hbid) hsmall) ?_
  rintro _ rfl
  refine Faces.bktBuf fun buf hbuf => ?_
  rw [bktImage_length]
  refine (bktFind_faces (h.sound _ hin) hbuf).attempt.bind ?_ (fun _ _ hf => hf.elim) fun _ h => h
  rintro (e | ⟨off, old⟩)
  . -- the key is not in the bucket
    dsimp only
    refine Spec.either (Spec.fact fun he => Spec.fact fun hnone => ?_) (Spec.fact fun he => ?_)
    . rw [if_pos he, Table.setPlan, find_none hnone]
      exact setEntry_faces h hfree (h.cell_none hnone) _ hklt hpos hvlt fun h0 => absurd h0 hbid
    . rw [if_neg he]
      exact Spec.fail fun s hs => hs.back
  . refine Spec.fact ?_
    rintro ⟨pre, q, post, hps, rfl, hhit⟩
    obtain ⟨rfl, rfl⟩ := Prod.mk.inj hhit
    rw [Nat.zero_add]
    have hshow := shows_split (hps ▸ hbuf)
    have hq : q ∈ tbl.pairs (g.place cfg q.key) := by simp [hps]
    have hfits := (h.sound _ hin q hq).toFits
    simp only [hshow.valId hfits, hshow.keyId hfits, Table.setPlan, h.find_pair hps]
    refine Spec.ite (fun hsame => ?_) fun hno => ?_
    . -- the value blob is rewritten
      have hv : q.vid ≠ 0 := by simpa [Pair.ent] using hsame.2.1
      have hplan : (if q.InPlace (g.placement lim q.key val) val then 0
          else bindsOf (g.placement lim q.key val) (some q.replaced)) = 0 := if_pos hsame
      rw [if_neg hv, hplan]
      have hcommit := h.inPlace hps hv hsame.2.2.2
      refine (kvUpdate_faces _ _).conseq (fun _ hs => hs) (fun _ _ _ => trivial) ?_ fun _ h => h
      rintro e s (⟨k, _, hs, _⟩ | ⟨⟨e', ht⟩, hs, _⟩)
      . refine .back (k := k) (.inr hbid) hs.blobs hs.unlanded ?_
        rw [hs.turns]
        exact Undone.refl _
      . refine .whole rfl (e := e') ?_ (hcommit.turned h (h.inPlace_map hps hcommit.distinct) hs)
        rw [SetPlan.commit, if_neg hbid]
        exact ht
    . -- the old entry makes room for the new one
      have hplan : (if q.InPlace (g.placement lim q.key val) val then 0
          else bindsOf (g.placement lim q.key val) (some q.replaced)) =
            bindsOf (g.placement lim q.key val) ((some q).map Pair.replaced) := if_neg hno
      rw [hplan]
      refine Faces.setBktBuf (bktImage cfg (pre ++ post)) ?_ ?_
      . rw [hps]
        rintro _ ⟨rest, rfl⟩
        obtain ⟨rest', hrest'⟩ := bktDrop_eq cfg pre q post rest
        exact ⟨rest', hrest'.symm⟩
      have hused : bktSize (tbl.pairs (g.place cfg q.key)) - (q.ent (bktSize pre)).len =
          bktSize (pre ++ post) := by
        rw [hps, bktSize_append, bktSize_cons, bktSize_append]
        show _ - q.size = _
        omega
      rw [hused]
      exact setEntry_faces h hfree (h.cell hps) _ hklt hpos hvlt fun h0 => absurd h0 hbid

theorem kvhashSet_faces (h : Stored cfg g tbl b top) (hfree : ∀ id, top < id → b id = none)
    (key val : List UInt8) :
    Spec releasing (Faces cfg.toStoreCfg b top lim dir bkt ts) (kvhashSet cfg g.root key val)
      (failing (fun _ _ => True) (SetFailed cfg g tbl b top lim
        (Function.update (tbl.map cfg g) key (some val)) (g.place cfg key)
        (tbl.setPlan cfg g lim key val) ts)) := by
  have hin := h.shape.place_in key
  rw [kvhashSet]
  refine Spec.ite (fun _ => Spec.fail fun s hs => hs.back) fun harg =>
    Spec.ite (fun _ => Spec.fail fun s hs => hs.back) fun hlong => ?_
  have hpos : 0 < key.length := by omega
  have hklt : key.length < 2 ^ 15 := by
    simp only [entLenMask] at hlong
    omega
  have hvlt : val.length < 2 ^ 15 := by
    simp only [entLenMask] at hlong
    omega
  refine Spec.finds (resolveLeaf_views _) (resolveLeaf_spec releasing_telling h key) ?_
  rintro _ rfl
  refine Faces.getRam fun r hr hlim => ?_
  have hbid : dirChild r.dirBuf (g.place cfg key).2 = tbl.bid (g.place cfg key) := by
    obtain ⟨rest, hrest⟩ := hr
    rw [← hrest, Table.leafImage, dirChild_image hin.2 (h.bid_lt hin)]
  obtain ⟨hkspill, hvspill⟩ := placement_of_ram h hr hlim key val
  simp only [hkspill, hvspill, hbid]
  refine Spec.ite (fun _ => Spec.fail fun s hs => hs.back) fun _ => Spec.ite (fun h0 => ?_) fun h0 => ?_
  . have hempty := h.empty _ hin h0
    have hcell : Cell cfg g tbl key [] none := by
      rw [← hempty]
      exact h.cell_none (by simp [hempty])
    rw [Table.setPlan, find_none (by simp [hempty])]
    have hentry := (@setEntry_faces _ _ _ _ _ lim _ _ _ ts) h hfree hcell (g.placement lim key val) hklt
      hpos hvlt fun _ => rfl
    rw [h0] at hentry ⊢
    exact hentry.pre fun s hs => hs.weaken List.prefix_rfl List.nil_prefix
  . exact setInBucket_faces h hfree hpos hklt hvlt h0

end Failed

end KeyValueDb.Containers
