import KeyValueDb.Containers.KvhashContents

/-!
A map as a system: calls, what the store does to each of them, and power cycles. Beside it the finite
map that the calls are about.
-/

namespace KeyValueDb.Containers

inductive KvOp where
  | get (key : List UInt8) (outSz : Nat)
  | set (key val : List UInt8)
  | del (key : List UInt8)
  | next (cursor : List UInt8) (koutSz voutSz : Nat)
  | count
  | stat
  | setInlineMax (keyMax valMax : Nat)
  | powerOff
  deriving Repr, DecidableEq

-- A call together with what the store does while it runs.
structure KvCall where
  op : KvOp
  turns : List Turn := []
  allocs : List (Option Nat) := []
  reads : List (Option Errno) := []
  deriving Repr, DecidableEq

inductive KvAnswer where
  | done
  | value (f : Fetched)
  | entry (x : Successor)
  | number (n : Nat)
  | info (i : MapInfo)
  deriving Repr, DecidableEq

abbrev KvReply := Out Errno KvAnswer

-- What comes of a call: its reply, and what happened in the store.
structure KvResult where
  reply : KvReply
  events : List Event

def KvOp.run (cfg : KvCfg) (root : Nat) : KvOp → K KvAnswer
  | .get key outSz => do
    let f ← kvhashGet cfg root key outSz
    pure (.value f)
  | .set key val => do
    kvhashSet cfg root key val
    pure .done
  | .del key => do
    kvhashDel cfg root key
    pure .done
  | .next cursor koutSz voutSz => do
    let x ← kvhashNext cfg root cursor koutSz voutSz
    pure (.entry x)
  | .count => do
    let n ← kvhashCount cfg root
    pure (.number n)
  | .stat => do
    let i ← kvhashStat cfg root
    pure (.info i)
  | .setInlineMax keyMax valMax => do
    kvhashSetInlineMax keyMax valMax
    pure .done
  | .powerOff => Proc.cut

theorem KvOp.run_client (cfg : KvCfg) (root : Nat) (op : KvOp) :
    Client cfg.toStoreCfg (op.run cfg root) := by
  cases op with
  | get key outSz => exact Client.after (kvhashGet_views key outSz) fun _ => Client.ret _
  | set key val => exact (kvhashSet_client key val).bind fun _ => Client.ret _
  | del key => exact (kvhashDel_client key).bind fun _ => Client.ret _
  | next cursor koutSz voutSz =>
    exact Client.after (kvhashNext_views cursor koutSz voutSz) fun _ => Client.ret _
  | count => exact Client.after kvhashCount_views fun _ => Client.ret _
  | stat => exact Client.after kvhashStat_views fun _ => Client.ret _
  | setInlineMax keyMax valMax =>
    exact (Client.getRam.bind fun _ => Client.putRam _).bind fun _ => Client.ret _
  | powerOff => exact Client.cut

def World.enterKv (w : World KvRam) (c : KvCall) : World KvRam :=
  { w with
    turns := c.turns
    allocs := c.allocs
    reads := c.reads
    history := [] }

def KvRam.boot (cfg : KvCfg) : KvRam where
  keyInlineMax := cfg.keyInlineMax
  valInlineMax := cfg.valInlineMax
  dirBuf := List.replicate cfg.maxPayload 0
  bktBuf := List.replicate cfg.maxPayload 0

-- Power is lost: only the flash stays.
def kvStep (cfg : KvCfg) (root : Nat) (w : World KvRam) (c : KvCall) : KvResult × World KvRam :=
  match c.op.run cfg root (w.enterKv c) with
  | (.cut, w') => (⟨.cut, w'.history⟩, w'.setRam (KvRam.boot cfg))
  | (r, w') => (⟨r, w'.history⟩, w')

def runKv (cfg : KvCfg) (root : Nat) (w : World KvRam) : List KvCall → List KvResult × World KvRam
  | [] => ([], w)
  | c :: cs =>
    let r := kvStep cfg root w c
    let rest := runKv cfg root r.2 cs
    (r.1 :: rest.1, rest.2)

-- Nothing failed that says that something is not there, and what failed has left its blob unchanged.
def KvResult.Plain (r : KvResult) : Prop :=
  ∀ ev ∈ r.events, ev.Telling ∧ ∀ e, ev = .edit e → ∀ err, e.turn ≠ .error err true

/-! The finite map -/

-- What a call may do to a map, as its reply tells. A loss of power comes before or after it.
inductive KvMap.Step (cmp : List UInt8 → List UInt8 → Ordering) :
    KvOp → KvReply → KvMap → KvMap → Prop where
  | got {m : KvMap} {key v : List UInt8} (outSz : Nat) (h : m key = some v) :
      Step cmp (.get key outSz) (.ok (.value (fetched outSz v))) m m
  | notGot {m : KvMap} {key : List UInt8} (outSz : Nat) (h : m key = none) :
      Step cmp (.get key outSz) (.err Errno.ENOENT) m m
  | set (m : KvMap) (key val : List UInt8) :
      Step cmp (.set key val) (.ok .done) m (Function.update m key (some val))
  | setCut (m : KvMap) (key val : List UInt8) :
      Step cmp (.set key val) .cut m (Function.update m key (some val))
  | deleted {m : KvMap} {key : List UInt8} (h : m key ≠ none) :
      Step cmp (.del key) (.ok .done) m (Function.update m key none)
  | notDeleted {m : KvMap} {key : List UInt8} (h : m key = none) :
      Step cmp (.del key) (.err Errno.ENOENT) m m
  | delCut (m : KvMap) (key : List UInt8) :
      Step cmp (.del key) .cut m (Function.update m key none)
  | next {m : KvMap} {cursor k v : List UInt8} (koutSz voutSz : Nat)
      (hl : LeastOf cmp (Above cmp m cursor) k) (hv : m k = some v) :
      Step cmp (.next cursor koutSz voutSz) (.ok (.entry (successor koutSz voutSz k v))) m m
  | last {m : KvMap} {cursor : List UInt8} (koutSz voutSz : Nat)
      (h : ∀ k, ¬ Above cmp m cursor k) :
      Step cmp (.next cursor koutSz voutSz) (.err Errno.ENODATA) m m
  | counted {m : KvMap} {n : Nat} (h : Counts m n) : Step cmp .count (.ok (.number n)) m m
  | stat (m : KvMap) (i : MapInfo) : Step cmp .stat (.ok (.info i)) m m
  | limits (m : KvMap) (keyMax valMax : Nat) :
      Step cmp (.setInlineMax keyMax valMax) (.ok .done) m m
  | failed (m : KvMap) (op : KvOp) {e : Errno} (h : e.Telling) : Step cmp op (.err e) m m
  | cut (m : KvMap) (op : KvOp) : Step cmp op .cut m m

inductive KvMap.Steps (cmp : List UInt8 → List UInt8 → Ordering) :
    List KvCall → List KvReply → KvMap → KvMap → Prop where
  | nil (m : KvMap) : Steps cmp [] [] m m
  | cons {c : KvCall} {cs : List KvCall} {r : KvReply} {rs : List KvReply} {m m' m'' : KvMap}
      (h : Step cmp c.op r m m') (hs : Steps cmp cs rs m' m'') :
      Steps cmp (c :: cs) (r :: rs) m m''

variable {cfg : KvCfg} {H : Hypothesis (World KvRam)} {g : Shape} {tbl : Table} {b : Blobs}
  {top : Nat} {lim : Nat × Nat} {dir bkt : List UInt8} {m : KvMap} {root : Nat}

/-! Calls on a map -/

-- The flash holds the map.
def HoldsMap (cfg : KvCfg) (g : Shape) (m : KvMap) (s : World KvRam) : Prop :=
  ∃ tbl, Stored cfg g tbl s.blobs s.top ∧ tbl.map cfg g = m

theorem Sees.holdsMap {s : World KvRam} (hs : Sees b top lim dir bkt s) (h : Stored cfg g tbl b top) :
    HoldsMap cfg g (tbl.map cfg g) s := by
  refine ⟨tbl, ?_, rfl⟩
  rw [hs.blobs, hs.top]
  exact h

theorem Turned.holdsMap {s : World KvRam} (h : Turned cfg g tbl b top lim m s) : HoldsMap cfg g m s := by
  obtain ⟨tbl', hmap, b', top', hstored, _, hs⟩ := h
  exact hmap ▸ hs.holdsMap hstored

theorem kvhashStat_spec (hH : ∀ w, H.holds w → telling.holds w) (h : Stored cfg g tbl b top) :
    Spec H (Sees b top lim dir bkt) (kvhashStat cfg g.root)
      (readPost b top lim [] []
        (· = fillInfo cfg g.depth (if g.depth = 1 then g.n else g.fan)
          (if g.depth = 1 then 0 else g.n))) := by
  rcases h.shape.levels with ⟨hd, hfan⟩ | ⟨hd, _⟩
  . have hdir := h.leaf_dir 0 h.shape.fan_pos
    rw [h.one_level hd] at hdir
    refine Spec.reads (dirLoad_spec hH h.leafOk hdir) ?_ fun e s hs he => ⟨hs, he⟩
    rintro _ rfl
    rw [hd]
    exact Spec.ret fun s hs => ⟨rfl, hs.idle⟩
  . refine Spec.reads (dirLoad_spec hH (h.topOk hd) (h.top_dir hd)) ?_ fun e s hs he => ⟨hs, he⟩
    rintro _ rfl
    refine Spec.dirBuf ?_
    rintro _ ⟨rest, rfl⟩
    rw [dirChild_image h.shape.fan_pos (h.leaf_lt h.shape.fan_pos)]
    refine Spec.ite (fun h0 => absurd h0 (h.leaf_pos h.shape.fan_pos)) fun _ => ?_
    refine Spec.reads (dirLoad_spec hH h.leafOk (h.leaf_dir 0 h.shape.fan_pos)) ?_
      fun e s hs he => ⟨hs, he⟩
    rintro _ rfl
    rw [hd]
    exact Spec.ret fun s hs => ⟨rfl, hs.idle⟩

-- Each exit is one that the finite map has too.
def stepPost (cfg : KvCfg) (g : Shape) (op : KvOp) (m : KvMap) : Post (World KvRam) Errno KvAnswer where
  ok a s := ∃ m', KvMap.Step (keyCmp cfg g) op (.ok a) m m' ∧ HoldsMap cfg g m' s
  err e s := ∃ m', KvMap.Step (keyCmp cfg g) op (.err e) m m' ∧ HoldsMap cfg g m' s
  cut s := ∃ m', KvMap.Step (keyCmp cfg g) op .cut m m' ∧ HoldsMap cfg g m' s

-- The store has come to hold the map `m`, and its other blobs are as they were.
def TurnedTo (cfg : KvCfg) (g : Shape) (tbl : Table) (b : Blobs) (top : Nat) (m : KvMap)
    (s : World KvRam) : Prop :=
  ∃ tbl', tbl'.map cfg g = m ∧ Stored cfg g tbl' s.blobs s.top ∧
    Moves g tbl b top tbl' s.blobs s.top

theorem Moves.refl : Moves g tbl b top tbl b top := ⟨le_rfl, fun _ _ _ => rfl, fun _ _ h => h⟩

theorem Sees.turnedTo {s : World KvRam} (hs : Sees b top lim dir bkt s)
    (h : Stored cfg g tbl b top) : TurnedTo cfg g tbl b top (tbl.map cfg g) s := by
  refine ⟨tbl, rfl, ?_⟩
  rw [hs.blobs, hs.top]
  exact ⟨h, Moves.refl⟩

theorem Turned.turnedTo {s : World KvRam} (h : Turned cfg g tbl b top lim m s) :
    TurnedTo cfg g tbl b top m s := by
  obtain ⟨tbl', hmap, b', top', hstored, hmoves, hs⟩ := h
  refine ⟨tbl', hmap, ?_⟩
  rw [hs.blobs, hs.top]
  exact ⟨hstored, hmoves⟩

theorem TurnedTo.holdsMap {s : World KvRam} (h : TurnedTo cfg g tbl b top m s) :
    HoldsMap cfg g m s := by
  obtain ⟨tbl', hmap, hstored, _⟩ := h
  exact ⟨tbl', hstored, hmap⟩

def turnPost (cfg : KvCfg) (g : Shape) (op : KvOp) (tbl : Table) (b : Blobs) (top : Nat) :
    Post (World KvRam) Errno KvAnswer where
  ok a s := ∃ m', KvMap.Step (keyCmp cfg g) op (.ok a) (tbl.map cfg g) m' ∧
    TurnedTo cfg g tbl b top m' s
  err e s := ∃ m', KvMap.Step (keyCmp cfg g) op (.err e) (tbl.map cfg g) m' ∧
    TurnedTo cfg g tbl b top m' s
  cut s := ∃ m', KvMap.Step (keyCmp cfg g) op .cut (tbl.map cfg g) m' ∧
    TurnedTo cfg g tbl b top m' s

theorem KvOp.run_turned (hH : ∀ w, H.holds w → plain.holds w) (h : Stored cfg g tbl b top)
    (op : KvOp) :
    Spec H (Sees b top lim dir bkt) (op.run cfg g.root) (turnPost cfg g op tbl b top) := by
  have htell : ∀ w, H.holds w → telling.holds w := fun w hw => plain_telling (hH w hw)
  have hfail : ∀ e s, Sees b top lim [] [] s → Failing e s →
      (turnPost cfg g op tbl b top).err e s :=
    fun e s hs he => ⟨_, .failed _ _ ⟨he.noent, he.nodata⟩, hs.turnedTo h⟩
  cases op with
  | get key outSz =>
    refine (kvhashGet_spec htell h key outSz).bind (fun f => ?_) ?_ fun _ hf => hf.elim
    . refine Spec.ret ?_
      rintro s ⟨⟨v, hv, rfl⟩, hs⟩
      exact ⟨_, .got outSz hv, hs.turnedTo h⟩
    . rintro e s ⟨hs, ⟨rfl, hnone⟩ | he | ⟨rfl, _⟩⟩
      . exact ⟨_, .notGot outSz hnone, hs.turnedTo h⟩
      . exact hfail e s hs he
      . exact ⟨_, .failed _ _ ⟨nofun, nofun⟩, hs.turnedTo h⟩
  | set key val =>
    refine (kvhashSet_spec hH h key val).bind (fun _ => ?_) ?_ ?_
    . exact Spec.ret fun s hs => ⟨_, .set _ key val, hs.turnedTo⟩
    . rintro e s ⟨he, hs⟩
      exact ⟨_, .failed _ _ he, hs.turnedTo⟩
    . rintro s (hs | hs)
      . exact ⟨_, .cut _ _, hs.turnedTo⟩
      . exact ⟨_, .setCut _ key val, hs.turnedTo⟩
  | del key =>
    refine (kvhashDel_spec hH h key).bind (fun _ => ?_) ?_ ?_
    . refine Spec.ret ?_
      rintro s ⟨hsome, hs⟩
      exact ⟨_, .deleted hsome, hs.turnedTo⟩
    . rintro e s ⟨he | ⟨rfl, hnone⟩, hs⟩
      . exact ⟨_, .failed _ _ he, hs.turnedTo⟩
      . exact ⟨_, .notDeleted hnone, hs.turnedTo⟩
    . rintro s (hs | hs)
      . exact ⟨_, .cut _ _, hs.turnedTo⟩
      . exact ⟨_, .delCut _ key, hs.turnedTo⟩
  | next cursor koutSz voutSz =>
    refine (kvhashNext_spec htell h cursor koutSz voutSz).bind (fun x => ?_) ?_ fun _ hf => hf.elim
    . refine Spec.ret ?_
      rintro s ⟨⟨k, v, hl, hv, rfl⟩, hs⟩
      exact ⟨_, .next koutSz voutSz hl hv, hs.turnedTo h⟩
    . rintro e s ⟨hs, ⟨rfl, hnone⟩ | he | ⟨rfl, _⟩⟩
      . exact ⟨_, .last koutSz voutSz hnone, hs.turnedTo h⟩
      . exact hfail e s hs he
      . exact ⟨_, .failed _ _ ⟨nofun, nofun⟩, hs.turnedTo h⟩
  | count =>
    refine (kvhashCount_spec htell h).bind (fun n => ?_) (fun e s hs => hfail e s hs.1 hs.2)
      fun _ hf => hf.elim
    refine Spec.ret ?_
    rintro s ⟨hn, hs⟩
    exact ⟨_, .counted hn, hs.turnedTo h⟩
  | stat =>
    refine (kvhashStat_spec htell h).bind (fun i => ?_) (fun e s hs => hfail e s hs.1 hs.2)
      fun _ hf => hf.elim
    exact Spec.ret fun s hs => ⟨_, .stat _ i, hs.2.turnedTo h⟩
  | setInlineMax keyMax valMax =>
    intro s hs _
    refine ⟨_, .limits _ keyMax valMax, tbl, rfl, ?_⟩
    show Stored cfg g tbl s.blobs s.top ∧ Moves g tbl b top tbl s.blobs s.top
    rw [hs.blobs, hs.top]
    exact ⟨h, Moves.refl⟩
  | powerOff => exact Spec.cut fun s hs => ⟨_, .cut _ _, hs.turnedTo h⟩

theorem KvOp.run_spec (hH : ∀ w, H.holds w → plain.holds w) (h : Stored cfg g tbl b top)
    (op : KvOp) :
    Spec H (Sees b top lim dir bkt) (op.run cfg g.root)
      (stepPost cfg g op (tbl.map cfg g)) := by
  refine (KvOp.run_turned hH h op).conseq (fun _ hs => hs) ?_ ?_ ?_
  . rintro a s ⟨m', hstep, hturned⟩
    exact ⟨m', hstep, hturned.holdsMap⟩
  . rintro e s ⟨m', hstep, hturned⟩
    exact ⟨m', hstep, hturned.holdsMap⟩
  . rintro s ⟨m', hstep, hturned⟩
    exact ⟨m', hstep, hturned.holdsMap⟩

/-! Calls on a map whose root cannot be loaded -/

-- The call has failed.
def refusedPost (α : Type) (b : Blobs) (top : Nat) (lim : Nat × Nat) (φ : Errno → Prop) :
    Post (World KvRam) Errno α where
  ok _ _ := False
  err e s := φ e ∧ Sees b top lim [] [] s
  cut _ := False

section Oversized

variable (hH : ∀ w, H.holds w → telling.holds w) (h : Oversized cfg root b)

include hH h

theorem dirLoad_oversized :
    Spec H (Sees b top lim dir bkt) (dirLoad cfg root) (refusedPost DirInfo b top lim Errno.Telling) := by
  obtain ⟨data, hdata, hlong⟩ := h
  have hget : Spec H (Sees b top lim dir bkt) (blobDbGet root cfg.maxPayload)
      (refusedPost (List UInt8) b top lim Errno.Telling) := by
    refine Spec.blobDbGet ?_ ?_ ?_ ?_
    . intro s d hs hd hlen
      rw [hs.blobs, hdata] at hd
      cases hd
      exact absurd hlong (Nat.not_lt.mpr hlen)
    . intro s hs hd
      rw [hs.blobs, hdata] at hd
      cases hd
    . exact fun s d hs _ _ => ⟨⟨nofun, nofun⟩, hs.readDone.idle⟩
    . intro s e hs hh
      have hf := failing_read hH hh
      exact ⟨⟨hf.noent, hf.nodata⟩, (hs.readFailed _ _).idle⟩
  have hpass : ∀ {α : Type} {x : K α} {β : Type} (f : α → K β),
      Spec H (Sees b top lim dir bkt) x (refusedPost α b top lim Errno.Telling) →
      Spec H (Sees b top lim dir bkt) (x >>= f) (refusedPost β b top lim Errno.Telling) := by
    intro α x β f hx
    exact hx.bind (fun _ _ hf => hf.elim) (fun _ _ he => he) fun _ hf => hf
  exact hpass _ (hpass _ (hpass _ hget))

theorem refused_dirLoad {α : Type} (f : DirInfo → K α) :
    Spec H (Sees b top lim dir bkt) (dirLoad cfg root >>= f) (refusedPost α b top lim Errno.Telling) :=
  (dirLoad_oversized hH h).bind (fun _ _ hf => hf.elim) (fun _ _ he => he) fun _ hf => hf

theorem refused_resolveLeaf {α : Type} (hash : UInt32) (f : Leaf → K α) :
    Spec H (Sees b top lim dir bkt) (resolveLeaf cfg root hash >>= f) (refusedPost α b top lim Errno.Telling) :=
  (refused_dirLoad hH h _).bind (fun _ _ hf => hf.elim) (fun _ _ he => he) fun _ hf => hf

-- A key that no entry has room for is not looked up.
theorem refused_lookup {α : Type} (key : List UInt8) (f : Leaf → K α) :
    Spec H (Sees b top lim dir bkt)
      (if key.length = 0 ∨ 0xffff < key.length then Proc.fail Errno.EINVAL
        else if entLenMask < key.length then Proc.fail Errno.ENOENT
        else resolveLeaf cfg root (cfg.hash key) >>= f)
      (refusedPost α b top lim fun e => e.Telling ∨ e = Errno.ENOENT) := by
  refine Spec.ite (fun _ => ?_) fun _ => Spec.ite (fun _ => ?_) fun _ => ?_
  . exact Spec.fail fun s hs => ⟨.inl ⟨nofun, nofun⟩, hs.idle⟩
  . exact Spec.fail fun s hs => ⟨.inr rfl, hs.idle⟩
  . exact (refused_resolveLeaf hH h _ f).conseq (fun _ hs => hs) (fun _ _ hf => hf)
      (fun e s hs => ⟨.inl hs.1, hs.2⟩) fun _ hf => hf

-- The map is empty and stays so.
theorem KvOp.run_oversized (cmp : List UInt8 → List UInt8 → Ordering) (op : KvOp) :
    Spec H (Sees b top lim dir bkt) (op.run cfg root)
      ⟨fun a s => KvMap.Step cmp op (.ok a) (fun _ => none) (fun _ => none) ∧ s.blobs = b ∧ s.top = top,
        fun e s => KvMap.Step cmp op (.err e) (fun _ => none) (fun _ => none) ∧ s.blobs = b ∧ s.top = top,
        fun s => op = .powerOff ∧ s.blobs = b ∧ s.top = top⟩ := by
  have hrefused : ∀ {op' : KvOp} {α : Type} {x : K α} {φ : Errno → Prop} (f : α → K KvAnswer),
      Spec H (Sees b top lim dir bkt) x (refusedPost α b top lim φ) →
      (∀ e, φ e → KvMap.Step cmp op' (.err e) (fun _ => none) fun _ => none) →
      Spec H (Sees b top lim dir bkt) (x >>= f)
        ⟨fun a s => KvMap.Step cmp op' (.ok a) (fun _ => none) (fun _ => none) ∧ s.blobs = b ∧ s.top = top,
          fun e s => KvMap.Step cmp op' (.err e) (fun _ => none) (fun _ => none) ∧ s.blobs = b ∧ s.top = top,
          fun s => op' = .powerOff ∧ s.blobs = b ∧ s.top = top⟩ := by
    intro op' α x φ f hx hφ
    exact hx.bind (fun _ _ hf => hf.elim) (fun e s hs => ⟨hφ e hs.1, hs.2.blobs, hs.2.top⟩) fun _ hf => hf.elim
  have hbad : ∀ {α : Type} {e : Errno}, e.Telling →
      Spec H (Sees b top lim dir bkt) (Proc.fail e : K α) (refusedPost α b top lim Errno.Telling) :=
    fun he => Spec.fail fun s hs => ⟨he, hs.idle⟩
  cases op with
  | get key outSz =>
    refine hrefused _ (refused_lookup hH h key _) ?_
    rintro e (he | rfl)
    . exact .failed _ _ he
    . exact .notGot outSz rfl
  | set key val =>
    exact hrefused _ (Spec.ite (fun _ => hbad ⟨nofun, nofun⟩) fun _ => Spec.ite
      (fun _ => hbad ⟨nofun, nofun⟩) fun _ => refused_resolveLeaf hH h _ _)
      fun e he => .failed _ _ he
  | del key =>
    refine hrefused _ (refused_lookup hH h key _) ?_
    rintro e (he | rfl)
    . exact .failed _ _ he
    . exact .notDeleted rfl
  | next cursor koutSz voutSz =>
    exact hrefused _ (Spec.ite (fun _ => hbad ⟨nofun, nofun⟩) fun _ => refused_dirLoad hH h _)
      fun e he => .failed _ _ he
  | count => exact hrefused _ (refused_dirLoad hH h _) fun e he => .failed _ _ he
  | stat => exact hrefused _ (refused_dirLoad hH h _) fun e he => .failed _ _ he
  | setInlineMax keyMax valMax =>
    exact fun s hs _ => ⟨.limits _ keyMax valMax, hs.blobs, hs.top⟩
  | powerOff => exact Spec.cut fun s hs => ⟨rfl, hs.blobs, hs.top⟩

end Oversized

/-! Runs -/

variable {w : World KvRam} {c : KvCall} {mc : Option MapConfig}

theorem Oversized.seen (h : Oversized cfg root w.blobs) : kvSeen cfg root w = fun _ => none := by
  funext key
  obtain ⟨hpost, _⟩ := (kvhashGet_views key entLenMask).silent.holds (w := w)
    (refused_lookup (fun _ hw => hw) h key _)
  rw [kvSeen, lookAt]
  generalize kvhashGet cfg root key entLenMask w.still = r at hpost
  obtain ⟨o, s⟩ := r
  cases o with
  | ok a => exact hpost.elim
  | err e => rfl
  | cut => exact hpost.elim

theorem Oversized.entries (h : Oversized cfg root b) : mapEntries cfg b root = [] := by
  obtain ⟨data, hdata, hlong⟩ := h
  have hdir : dirAt cfg b root = none := by
    simp only [dirAt, hdata]
    exact if_pos hlong
  rw [mapEntries, mapBuckets, mapLeaves, hdir]
  rfl

theorem Keeps.seen (h : Keeps cfg g m w.blobs w.top) : kvSeen cfg g.root w = m := by
  rcases h with ⟨tbl, hstored, rfl⟩ | ⟨hover, rfl⟩
  . exact hstored.seen
  . exact hover.seen

-- One call.
theorem kvStep_holds (h : HoldsMap cfg g m w) (hp : (kvStep cfg g.root w c).1.Plain) :
    ∃ m', KvMap.Step (keyCmp cfg g) c.op (kvStep cfg g.root w c).1.reply m m' ∧
      HoldsMap cfg g m' (kvStep cfg g.root w c).2 := by
  obtain ⟨tbl, hstored, rfl⟩ := h
  have hpost := KvOp.run_spec (H := plain) (fun _ hw => hw) hstored c.op (w.enterKv c)
    (sees_self (w.enterKv c))
  simp only [kvStep] at hp ⊢
  generalize c.op.run cfg g.root (w.enterKv c) = r at hpost hp
  obtain ⟨o, s⟩ := r
  cases o with
  | ok a => exact hpost hp
  | err e => exact hpost hp
  | cut => exact hpost hp

theorem kvStep_oversized (h : Oversized cfg root w.blobs) (hp : (kvStep cfg root w c).1.Plain)
    (cmp : List UInt8 → List UInt8 → Ordering) :
    KvMap.Step cmp c.op (kvStep cfg root w c).1.reply (fun _ => none) (fun _ => none) ∧
      Oversized cfg root (kvStep cfg root w c).2.blobs ∧
      ((kvStep cfg root w c).1.reply = .cut → c.op = .powerOff) := by
  have hpost := KvOp.run_oversized (fun _ hw => hw) h cmp c.op (w.enterKv c)
    (sees_self (w.enterKv c))
  simp only [kvStep] at hp ⊢
  generalize c.op.run cfg root (w.enterKv c) = r at hpost hp
  obtain ⟨o, s⟩ := r
  have htell : telling.holds s := by
    intro ev hev
    cases o <;> exact (hp ev hev).1
  cases o with
  | ok a =>
    obtain ⟨hstep, hb, _⟩ := hpost htell
    exact ⟨hstep, hb.symm ▸ h, nofun⟩
  | err e =>
    obtain ⟨hstep, hb, _⟩ := hpost htell
    exact ⟨hstep, hb.symm ▸ h, nofun⟩
  | cut =>
    obtain ⟨hop, hb, _⟩ := hpost htell
    exact ⟨.cut _ _, (show s.blobs = w.blobs from hb).symm ▸ h, fun _ => hop⟩

theorem kvStep_keeps (h : Keeps cfg g m w.blobs w.top) (hp : (kvStep cfg g.root w c).1.Plain) :
    ∃ m', KvMap.Step (keyCmp cfg g) c.op (kvStep cfg g.root w c).1.reply m m' ∧
      Keeps cfg g m' (kvStep cfg g.root w c).2.blobs (kvStep cfg g.root w c).2.top := by
  rcases h with hholds | ⟨hover, rfl⟩
  . obtain ⟨m', hstep, hholds'⟩ := kvStep_holds hholds hp
    exact ⟨m', hstep, .inl hholds'⟩
  . obtain ⟨hstep, hover', _⟩ := kvStep_oversized hover hp (keyCmp cfg g)
    exact ⟨_, hstep, .inr ⟨hover', rfl⟩⟩

theorem runKv_keeps (cs : List KvCall) (h : Keeps cfg g m w.blobs w.top)
    (hp : ∀ r ∈ (runKv cfg g.root w cs).1, r.Plain) :
    ∃ m', KvMap.Steps (keyCmp cfg g) cs ((runKv cfg g.root w cs).1.map KvResult.reply) m m' ∧
      Keeps cfg g m' (runKv cfg g.root w cs).2.blobs (runKv cfg g.root w cs).2.top := by
  induction cs generalizing m w with
  | nil => exact ⟨m, .nil m, h⟩
  | cons c cs ih =>
    obtain ⟨m1, hstep, h1⟩ := kvStep_keeps h (hp _ List.mem_cons_self)
    obtain ⟨m2, hsteps, h2⟩ := ih h1 fun r hr => hp r (List.mem_cons_of_mem _ hr)
    exact ⟨m2, .cons hstep hsteps, h2⟩

-- A map is created at an id that was handed out.
structure MapMade (cfg : KvCfg) (root : Nat) (mc : Option MapConfig) (w : World KvRam) : Prop where
  root_pos : 0 < root
  root_le : root ≤ w.top
  top_lt : w.top < 2 ^ 64
  returned : (kvhashCreate cfg root mc w).1 = .ok ()

-- The calls that follow the create.
def lifeOfMap (cfg : KvCfg) (root : Nat) (mc : Option MapConfig) (w : World KvRam)
    (cs : List KvCall) : List KvResult × World KvRam :=
  runKv cfg root (kvhashCreate cfg root mc w).2 cs

theorem MapMade.keeps (h : MapMade cfg root mc w) :
    ∃ geo, deriveGeometry cfg mc = some (.ok geo) ∧
      Keeps cfg (geo.shape root) (fun _ => none) (kvhashCreate cfg root mc w).2.blobs
        (kvhashCreate cfg root mc w).2.top ∧
      (Oversized cfg root (kvhashCreate cfg root mc w).2.blobs →
        cfg.maxPayload < dirLen geo.nTop) := by
  have hpost : Post.Holds _ (kvhashCreate cfg root mc w) :=
    kvhashCreate_spec (H := ⟨fun _ => True, fun _ _ => trivial⟩) mc h.root_pos h.root_le h.top_lt w
      (sees_self w) trivial
  have hret := h.returned
  generalize kvhashCreate cfg root mc w = r at hpost hret
  obtain ⟨o, s⟩ := r
  subst hret
  obtain ⟨geo, hgeo, b', top', hs, hkeeps, hover⟩ := hpost
  refine ⟨geo, hgeo, ?_⟩
  show Keeps cfg (geo.shape root) _ s.blobs s.top ∧ (Oversized cfg root s.blobs → _)
  rw [hs.blobs, hs.top]
  exact ⟨hkeeps, hover⟩

theorem lifeOfMap_keeps (h : MapMade cfg root mc w) (cs : List KvCall)
    (hp : ∀ r ∈ (lifeOfMap cfg root mc w cs).1, r.Plain) :
    ∃ geo, deriveGeometry cfg mc = some (.ok geo) ∧
      ∃ m, KvMap.Steps (keyOrder cfg geo) cs
          ((lifeOfMap cfg root mc w cs).1.map KvResult.reply) (fun _ => none) m ∧
        Keeps cfg (geo.shape root) m (lifeOfMap cfg root mc w cs).2.blobs
          (lifeOfMap cfg root mc w cs).2.top := by
  obtain ⟨geo, hgeo, hkeeps, _⟩ := h.keeps
  exact ⟨geo, hgeo, runKv_keeps cs hkeeps hp⟩

-- Whatever the calls are, they answer as a finite map would, which is the one that get shows and the
-- one in the buckets, with one entry for each key.
theorem kvhash_refines_map (h : MapMade cfg root mc w) (cs : List KvCall)
    (hp : ∀ r ∈ (lifeOfMap cfg root mc w cs).1, r.Plain) :
    ∃ geo, deriveGeometry cfg mc = some (.ok geo) ∧
      ∃ m, KvMap.Steps (keyOrder cfg geo) cs
          ((lifeOfMap cfg root mc w cs).1.map KvResult.reply) (fun _ => none) m ∧
        kvSeen cfg root (lifeOfMap cfg root mc w cs).2 = m ∧
        ((mapEntries cfg (lifeOfMap cfg root mc w cs).2.blobs root).map
          (entryKey (lifeOfMap cfg root mc w cs).2.blobs)).Nodup ∧
        ∀ k v, m k = some v ↔ ∃ x ∈ mapEntries cfg (lifeOfMap cfg root mc w cs).2.blobs root,
          entryKey (lifeOfMap cfg root mc w cs).2.blobs x = k ∧
            entryVal (lifeOfMap cfg root mc w cs).2.blobs x = v := by
  obtain ⟨geo, hgeo, m, hsteps, hkeeps⟩ := lifeOfMap_keeps h cs hp
  refine ⟨geo, hgeo, m, hsteps, hkeeps.seen, ?_⟩
  rcases hkeeps with ⟨tbl, hstored, rfl⟩ | ⟨hover, rfl⟩
  . exact hstored.entries
  . rw [show mapEntries cfg _ root = [] from hover.entries]
    exact ⟨List.nodup_nil, fun k v => by simp⟩

instance : DecidablePred Event.Telling
  | .edit ⟨_, _, .error e _, _⟩ =>
    decidable_of_iff (e ≠ Errno.ENOENT ∧ e ≠ Errno.ENODATA) (by simp [Event.Telling])
  | .edit ⟨_, _, .done, _⟩ => .isTrue nofun
  | .edit ⟨_, _, .cut _, _⟩ => .isTrue nofun
  | .readError _ e => decidable_of_iff (e ≠ Errno.ENOENT ∧ e ≠ Errno.ENODATA) Iff.rfl

-- Whether an event is a write that failed and has taken effect.
def Event.landedError : Event → Bool
  | .edit ⟨_, _, .error _ true, _⟩ => true
  | _ => false

theorem Event.landedError_iff (ev : Event) :
    ev.landedError = false ↔ ∀ e, ev = .edit e → ∀ err, e.turn ≠ .error err true := by
  constructor
  . rintro h ⟨id, data, turn, before⟩ rfl err rfl
    cases h
  . intro h
    unfold Event.landedError
    split
    . next id data e before => exact absurd rfl (h _ rfl e)
    . rfl

instance (r : KvResult) : Decidable r.Plain :=
  decidable_of_iff (∀ ev ∈ r.events, ev.Telling ∧ ev.landedError = false)
    (by simp only [KvResult.Plain, Event.landedError_iff])

-- A build with small payloads, where keys of one length have one hash, and no fingerprints.
def smallMap : KvCfg where
  maxPayload := 72
  maxObject := 200
  partition := 2000
  hash := fun k => UInt32.ofNat k.length
  fpMask := 0
  keyInlineMax := 3
  valInlineMax := 3
  sizeMod := 2 ^ 32
  size_ge := size32_ge
  buckets_ge := by decide
  payload_le := by decide

-- A store with nothing in it but the ids of the root registry and of the map.
def blankMap : World KvRam := ⟨fun _ => none, 2, 0, [], [], [], KvRam.boot smallMap, []⟩

theorem blankMap_made {mc : Option MapConfig}
    (h : (kvhashCreate smallMap 2 mc blankMap).1 = .ok ()) : MapMade smallMap 2 mc blankMap :=
  ⟨by decide, by decide, by decide, h⟩

-- Two keys with their own blobs, one of them set again with another placement, a write that fails.
def mixedCalls : List KvCall :=
  [⟨.set [2] [1, 2, 3, 4], [], [], []⟩, ⟨.set [1, 2, 3, 4] [9], [], [], []⟩,
    ⟨.set [1, 2, 3, 5] [8, 8], [.error Errno.EIO false], [], []⟩,
    ⟨.set [1, 2, 3, 5] [8, 8], [], [], []⟩, ⟨.setInlineMax 10 10, [], [], []⟩,
    ⟨.set [1, 2, 3, 4] [5, 5], [], [], []⟩, ⟨.del [2], [], [], []⟩, ⟨.count, [], [], []⟩,
    ⟨.next [1, 2, 3, 4] 10 10, [], [], []⟩, ⟨.get [2] 10, [], [], []⟩]

theorem kvhash_refines_map_mixed :
    (lifeOfMap smallMap 2 none blankMap mixedCalls).1.map KvResult.reply =
        [.ok .done, .ok .done, .err Errno.EIO, .ok .done, .ok .done, .ok .done, .ok .done,
          .ok (.number 2), .ok (.entry (.entry [1, 2, 3, 5] [8, 8])), .err Errno.ENOENT] ∧
      ∃ geo, deriveGeometry smallMap none = some (.ok geo) ∧
        ∃ m, KvMap.Steps (keyOrder smallMap geo) mixedCalls
            ((lifeOfMap smallMap 2 none blankMap mixedCalls).1.map KvResult.reply) (fun _ => none) m ∧
          kvSeen smallMap 2 (lifeOfMap smallMap 2 none blankMap mixedCalls).2 = m ∧
          ((mapEntries smallMap (lifeOfMap smallMap 2 none blankMap mixedCalls).2.blobs 2).map
            (entryKey (lifeOfMap smallMap 2 none blankMap mixedCalls).2.blobs)).Nodup ∧
          ∀ k v, m k = some v ↔
            ∃ x ∈ mapEntries smallMap (lifeOfMap smallMap 2 none blankMap mixedCalls).2.blobs 2,
              entryKey (lifeOfMap smallMap 2 none blankMap mixedCalls).2.blobs x = k ∧
                entryVal (lifeOfMap smallMap 2 none blankMap mixedCalls).2.blobs x = v :=
  ⟨by decide +kernel, kvhash_refines_map (blankMap_made (by decide +kernel)) mixedCalls
    (by decide +kernel)⟩

/-! Power cuts -/

-- What a set or a del makes of a map.
def KvOp.after (op : KvOp) (m : KvMap) : KvMap :=
  match op with
  | .set key val => Function.update m key (some val)
  | .del key => Function.update m key none
  | _ => m

theorem KvMap.Step.cut_after {op : KvOp} {m' : KvMap} (h : KvMap.Step (keyCmp cfg g) op .cut m m') :
    m' = m ∨ m' = op.after m := by
  cases h with
  | setCut => exact .inr rfl
  | delCut => exact .inr rfl
  | cut => exact .inl rfl

theorem runKv_append (w : World KvRam) (cs cs' : List KvCall) :
    runKv cfg root w (cs ++ cs') =
      ((runKv cfg root w cs).1 ++ (runKv cfg root (runKv cfg root w cs).2 cs').1,
        (runKv cfg root (runKv cfg root w cs).2 cs').2) := by
  induction cs generalizing w with
  | nil => rfl
  | cons c cs ih => simp only [List.cons_append, runKv, ih]

-- A set or a del in which power is lost has happened or not, and every reader says the same of it.
theorem kvhash_cut_atomic (h : MapMade cfg root mc w) (cs : List KvCall) (c : KvCall)
    (hop : (∃ key val, c.op = .set key val) ∨ ∃ key, c.op = .del key)
    (hp : ∀ r ∈ (lifeOfMap cfg root mc w (cs ++ [c])).1, r.Plain)
    (hcut : (kvStep cfg root (lifeOfMap cfg root mc w cs).2 c).1.reply = .cut) :
    (kvSeen cfg root (kvStep cfg root (lifeOfMap cfg root mc w cs).2 c).2 =
        kvSeen cfg root (lifeOfMap cfg root mc w cs).2 ∨
      kvSeen cfg root (kvStep cfg root (lifeOfMap cfg root mc w cs).2 c).2 =
        c.op.after (kvSeen cfg root (lifeOfMap cfg root mc w cs).2)) ∧
    Coherent cfg root (kvStep cfg root (lifeOfMap cfg root mc w cs).2 c).2 := by
  rw [lifeOfMap, runKv_append] at hp
  obtain ⟨geo, _, m, _, hkeeps⟩ := lifeOfMap_keeps h cs fun r hr => hp r (List.mem_append_left _ hr)
  have hpc : (kvStep cfg root (lifeOfMap cfg root mc w cs).2 c).1.Plain :=
    hp _ (List.mem_append_right _ List.mem_cons_self)
  have hbefore : kvSeen cfg root (lifeOfMap cfg root mc w cs).2 = m := hkeeps.seen
  rcases hkeeps with hholds | ⟨hover, _⟩
  . obtain ⟨m', hstep, tbl, hstored, rfl⟩ := kvStep_holds hholds hpc
    have hafter : kvSeen cfg root (kvStep cfg root (lifeOfMap cfg root mc w cs).2 c).2 =
        tbl.map cfg (geo.shape root) := hstored.seen
    have hstep : KvMap.Step (keyOrder cfg geo) c.op .cut m (tbl.map cfg (geo.shape root)) :=
      hcut ▸ hstep
    rw [hbefore, hafter]
    exact ⟨hstep.cut_after, hstored.coherent⟩
  -- only a map that can be loaded is written to
  . have hoff := (kvStep_oversized hover hpc (keyOrder cfg geo)).2.2 hcut
    rcases hop with ⟨key, val, hop⟩ | ⟨key, hop⟩
    all_goals
      rw [hop] at hoff
      cases hoff

-- Power is lost before the directory of the new bucket is written, and a del is cut once its bucket is.
theorem kvhash_cut_atomic_twice :
    (kvSeen smallMap 2 (kvStep smallMap 2 (lifeOfMap smallMap 2 none blankMap
          [⟨.set [1, 2, 3, 4] [1, 2, 3, 4], [.done, .done, .done, .cut false], [], []⟩,
            ⟨.set [2] [1, 2, 3, 4], [], [], []⟩]).2
          ⟨.del [2], [.done, .cut false], [], []⟩).2 =
        kvSeen smallMap 2 (lifeOfMap smallMap 2 none blankMap
          [⟨.set [1, 2, 3, 4] [1, 2, 3, 4], [.done, .done, .done, .cut false], [], []⟩,
            ⟨.set [2] [1, 2, 3, 4], [], [], []⟩]).2 ∨
      kvSeen smallMap 2 (kvStep smallMap 2 (lifeOfMap smallMap 2 none blankMap
          [⟨.set [1, 2, 3, 4] [1, 2, 3, 4], [.done, .done, .done, .cut false], [], []⟩,
            ⟨.set [2] [1, 2, 3, 4], [], [], []⟩]).2
          ⟨.del [2], [.done, .cut false], [], []⟩).2 =
        KvOp.after (.del [2]) (kvSeen smallMap 2 (lifeOfMap smallMap 2 none blankMap
          [⟨.set [1, 2, 3, 4] [1, 2, 3, 4], [.done, .done, .done, .cut false], [], []⟩,
            ⟨.set [2] [1, 2, 3, 4], [], [], []⟩]).2)) ∧
    Coherent smallMap 2 (kvStep smallMap 2 (lifeOfMap smallMap 2 none blankMap
      [⟨.set [1, 2, 3, 4] [1, 2, 3, 4], [.done, .done, .done, .cut false], [], []⟩,
        ⟨.set [2] [1, 2, 3, 4], [], [], []⟩]).2 ⟨.del [2], [.done, .cut false], [], []⟩).2 :=
  kvhash_cut_atomic (blankMap_made (by decide +kernel)) _ _ (.inr ⟨[2], rfl⟩) (by decide +kernel)
    (by decide +kernel)

end KeyValueDb.Containers
