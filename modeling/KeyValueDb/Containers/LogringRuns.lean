import KeyValueDb.Containers.LogringReads

/-!
A log as a system: calls, what the store does to each of them, and power cycles. Beside it the ledger,
which says what a log is for: records are kept in order, the oldest ones go first.
-/

namespace KeyValueDb.Containers

inductive LogOp where
  | «open»
  | append (rec : List UInt8)
  | reset
  | powerOff
  deriving Repr, DecidableEq

-- A call together with what the store does while it runs.
structure LogCall where
  op : LogOp
  turns : List Turn := []
  allocs : List (Option Nat) := []
  reads : List (Option Errno) := []
  deriving Repr, DecidableEq

abbrev LogReply := Out Errno Nat

variable (cfg : LogCfg)

-- The id an append hands out; 0 from the others.
def LogOp.run (root : Nat) : LogOp → L Nat
  | .open => do
    logringOpen cfg root
    pure 0
  | .append rec => logringAppend cfg rec
  | .reset => do
    logringReset cfg
    pure 0
  | .powerOff => Proc.cut

def World.enterLog (w : LogWorld) (c : LogCall) : LogWorld :=
  { w with
    turns := c.turns
    allocs := c.allocs
    reads := c.reads }

-- Power is lost: only the flash stays.
def logStep (root : Nat) (w : LogWorld) (c : LogCall) : LogReply × LogWorld :=
  match c.op.run cfg root (w.enterLog c) with
  | (.cut, w') => (.cut, w'.setRam none)
  | r => r

def runLog (root : Nat) (w : LogWorld) : List LogCall → List LogReply × LogWorld
  | [] => ([], w)
  | c :: cs =>
    let r := logStep cfg root w c
    let rest := runLog root r.2 cs
    (r.1 :: rest.1, rest.2)

-- What a reader that meets no failure finds in the log, from the oldest entry on.
def logContents (w : LogWorld) : Out Errno (List LogEntry × Errno) :=
  (logringReadAll cfg (w.enterLog ⟨.powerOff, [], [], []⟩)).1

def logStats (w : LogWorld) : Out Errno LogringStats := (logringStats w).1

variable {cfg} {root : Nat} {g : LogId} {c : LogCall}

theorem logStep_grows (cfg : LogCfg) (root : Nat) (w : LogWorld) (c : LogCall) :
    w ≤ (logStep cfg root w c).2 := by
  have := (c.op.run cfg root).grows (w.enterLog c)
  unfold logStep
  split
  . next h => rwa [h] at this
  . exact this

theorem runLog_grows (cfg : LogCfg) (root : Nat) (w : LogWorld) (cs : List LogCall) :
    w ≤ (runLog cfg root w cs).2 := by
  induction cs generalizing w with
  | nil => exact le_refl w
  | cons c cs ih => exact le_trans (logStep_grows cfg root w c) (ih _)

/-! Nothing but a loss of power stops a call -/

theorem handle_uncut : Uncut handle := by
  refine Uncut.getRam.bind fun o => ?_
  cases o with
  | none => exact Uncut.fail _
  | some h => exact Uncut.ret h

theorem setHandle_uncut (h : Logring) : Uncut (setHandle h) := Uncut.putRam _

theorem entryRead_uncut (id : Nat) (outSz : Option Nat) : Uncut (entryRead cfg id outSz) :=
  (Uncut.blobDbGet _ _).bind fun _ =>
    (Uncut.ofExcept _).bind fun _ => Uncut.ite (Uncut.fail _) (Uncut.ret _)

theorem rootLoad_uncut : Uncut (rootLoad root) := by
  refine (Uncut.blobDbGet _ _).attempt.bind fun o => ?_
  cases o with
  | ok buf => exact Uncut.ofExcept _
  | error e => exact Uncut.fail _

theorem collectRun_uncut (n cur stop : Nat) : Uncut (collectRun cfg n cur stop) := by
  induction n generalizing cur with
  | zero => exact Uncut.ret _
  | succ n ih =>
    refine Uncut.ite (Uncut.ret _) ((entryRead_uncut _ _).attempt.bind fun o => ?_)
    cases o with
    | error e => exact Uncut.ret _
    | ok e => exact (ih e.1).bind fun _ => Uncut.ret _

theorem deleteAll_uncut (ids : List Nat) : Uncut (deleteAll ids) := by
  induction ids with
  | nil => exact Uncut.ret _
  | cons id ids ih => exact (Uncut.blobDbDelete id).attempt.bind fun _ => ih

theorem runDelete_uncut (evictFrom evictTo : Nat) : Uncut (runDelete cfg evictFrom evictTo) :=
  (collectRun_uncut _ _ _).bind fun _ => deleteAll_uncut _

theorem evictLoop_uncut (h : Logring) (force : Bool) (fuel : Nat) (ev : Evicted) :
    Uncut (evictLoop cfg h force fuel ev) := by
  induction fuel generalizing ev with
  | zero => exact Uncut.ret _
  | succ fuel ih =>
    exact Uncut.ite ((entryRead_uncut _ _).bind fun e => Uncut.ite (Uncut.ret _) (ih _)) (Uncut.ret _)

theorem checkpoint_uncut (force : Bool) : Uncut (checkpoint cfg force) :=
  handle_uncut.bind fun h =>
    (Uncut.ite (evictLoop_uncut h force _ _) (Uncut.ret _)).bind fun _ => Uncut.ite
      ((setHandle_uncut _).bind fun _ => (Uncut.blobDbUpdate _ _ _).bind fun _ =>
        (runDelete_uncut _ _).bind fun _ => setHandle_uncut _)
      ((Uncut.blobDbUpdate _ _ _).bind fun _ => setHandle_uncut _)

theorem openWalk_uncut (fuel cur : Nat) (wk : Walked) : Uncut (openWalk cfg fuel cur wk) := by
  induction fuel generalizing cur wk with
  | zero => exact Uncut.fail _
  | succ fuel ih =>
    refine (entryRead_uncut _ _).attempt.bind fun o => ?_
    cases o with
    | error e => exact Uncut.ite (Uncut.ret _) (Uncut.fail _)
    | ok e => exact Uncut.ite (Uncut.fail _) (ih _ _)

theorem logringOpen_uncut : Uncut (logringOpen cfg root) :=
  Uncut.ite (Uncut.fail _) (rootLoad_uncut.bind fun _ =>
    (Uncut.when (runDelete_uncut _ _)).bind fun _ => (Uncut.read _).bind fun _ =>
      (openWalk_uncut _ _ _).bind fun _ => setHandle_uncut _)

theorem bindEvicting_uncut (rId r2 : Nat) (rec : List UInt8) (fuel : Nat) :
    Uncut (bindEvicting cfg rId r2 rec fuel) := by
  induction fuel with
  | zero => exact Uncut.fail _
  | succ fuel ih =>
    refine (Uncut.blobDbUpdate _ _ _).attempt.bind fun o => ?_
    cases o with
    | ok _ => exact Uncut.ret _
    | error e =>
      exact handle_uncut.bind fun _ =>
        Uncut.ite ((checkpoint_uncut true).bind fun _ => ih) (Uncut.fail _)

theorem logringAppend_uncut (rec : List UInt8) : Uncut (logringAppend cfg rec) :=
  handle_uncut.bind fun _ => Uncut.ite (Uncut.fail _) (Uncut.blobDbAllocId.bind fun _ =>
    Uncut.ite (Uncut.fail _) ((Uncut.read _).bind fun _ => (bindEvicting_uncut _ _ _ _).bind fun _ =>
      handle_uncut.bind fun _ => (setHandle_uncut _).bind fun _ =>
        (Uncut.when ((checkpoint_uncut false).attempt.bind fun _ => Uncut.ret _)).bind fun _ =>
          Uncut.ret _))

theorem shrink_uncut (fuel : Nat) : Uncut (shrink cfg fuel) := by
  induction fuel with
  | zero => exact Uncut.fail _
  | succ fuel ih =>
    exact handle_uncut.bind fun _ =>
      Uncut.ite ((checkpoint_uncut true).bind fun _ => ih) (Uncut.ret _)

theorem logringReset_uncut : Uncut (logringReset cfg) :=
  (Uncut.read _).bind fun _ => (shrink_uncut _).bind fun _ => handle_uncut.bind fun _ =>
    Uncut.blobDbAllocId.bind fun _ => Uncut.ite (Uncut.fail _) ((setHandle_uncut _).bind fun _ =>
      (Uncut.blobDbUpdate _ _ _).bind fun _ => Uncut.when (runDelete_uncut _ _))

theorem logStep_uncut (cfg : LogCfg) (root : Nat) (w : LogWorld) {c : LogCall} (hop : c.op ≠ .powerOff)
    (hc : ∀ t ∈ c.turns, ∀ landed, t ≠ .cut landed) : (logStep cfg root w c).1 ≠ .cut := by
  have hrun : Uncut (c.op.run cfg root) := by
    cases hcop : c.op with
    | «open» => exact logringOpen_uncut.bind fun _ => Uncut.ret _
    | append rec => exact logringAppend_uncut rec
    | reset => exact logringReset_uncut.bind fun _ => Uncut.ret _
    | powerOff => exact absurd hcop hop
  have hgo := (hrun (w.enterLog c) hc).1
  unfold logStep
  split
  . next h =>
    rw [h] at hgo
    exact absurd rfl hgo
  . exact hgo

/-! Reading changes nothing -/

theorem handle_steady : Steady handle := by
  refine (Steady.read _).bind fun o => ?_
  cases o with
  | none => exact Steady.fail _
  | some h => exact Steady.ret h

theorem entryRead_steady (id : Nat) (outSz : Option Nat) : Steady (entryRead cfg id outSz) :=
  (Steady.readBlob _ _).bind fun _ =>
    (Steady.ofExcept _).bind fun _ => Steady.ite (Steady.fail _) (Steady.ret _)

theorem logringNext_steady (cfg : LogCfg) (cur : LogringCursor) (outSz : Option Nat) :
    Steady (logringNext cfg cur outSz) := by
  refine handle_steady.bind fun h => Steady.ite (Steady.ret _) (Steady.ite (Steady.ret _) ?_)
  refine (entryRead_steady _ _).attempt.bind fun o => ?_
  cases o with
  | error e => exact Steady.ite (Steady.ret _) (Steady.ret _)
  | ok e => exact Steady.ret _

theorem logringReadAll_steady (cfg : LogCfg) : Steady (logringReadAll cfg) := by
  have hwalk : ∀ fuel cur, Steady (logringWalk cfg fuel cur) := by
    intro fuel
    induction fuel with
    | zero => exact fun _ => Steady.fail _
    | succ fuel ih =>
      intro cur
      refine (logringNext_steady _ _ _).bind fun r => ?_
      cases hr : r.1 with
      | error e => exact Steady.ret _
      | ok e => exact (ih r.2).bind fun _ => Steady.ret _
  exact handle_steady.bind fun _ => (Steady.read _).bind fun _ => hwalk _ _

-- A full walk delivers the log the handle goes by.
theorem Running.contents {d v : LogView} {h : Logring} {w : LogWorld}
    (hw : Running cfg g d v [] h w) (hf : faithful.holds w) :
    logContents cfg w = .ok (v.entries, Errno.ENOENT) := by
  have hw' : Running cfg g d v [] h (w.enterLog ⟨.powerOff, [], [], []⟩) := hw
  have hstay := logringReadAll_steady cfg (w.enterLog ⟨.powerOff, [], [], []⟩) rfl
  have hpost := logringReadAll_spec hw' _ (World.Reread.refl _) (by rw [hstay]; exact hf)
  unfold logContents
  generalize logringReadAll cfg (w.enterLog ⟨.powerOff, [], [], []⟩) = o at hpost
  obtain ⟨o, s⟩ := o
  cases o with
  | ok a => exact congrArg Out.ok hpost.2
  | err e => exact hpost.elim
  | cut => exact hpost.elim

theorem Running.stats {d v : LogView} {h : Logring} {w : LogWorld}
    (hw : Running cfg g d v [] h w) :
    logStats w = .ok ⟨v.headId, v.tailId, UInt32.ofNat v.entries.length, UInt32.ofNat v.bytes⟩ := by
  obtain ⟨_, hram, hs⟩ := hw
  have hhandle : handle w = (.ok h, w) := by
    unfold handle getRam
    rw [Proc.bind_run, Proc.read_run, Proc.step, hram]
    rfl
  unfold logStats logringStats
  rw [Proc.bind_ok hhandle, ← hs.mirrors.head, ← hs.mirrors.tail, ← hs.mirrors.count,
    ← hs.mirrors.bytes]
  rfl

/-! The ledger -/

structure Ledger where
  -- every record bound so far
  bound : List LogEntry
  -- those bound since the last reset that returned
  since : List LogEntry
  -- those still there
  kept : List LogEntry
  -- whether a reset was cut after the last record
  resetCut : Bool
  -- the id of the next record
  next : Nat

def Ledger.empty (first : Nat) : Ledger := ⟨[], [], [], false, first⟩

-- One more record; then the `n` oldest ones go.
def Ledger.push (l : Ledger) (rec : List UInt8) (next n : Nat) : Ledger where
  bound := l.bound ++ [(l.next, rec)]
  since := l.since ++ [(l.next, rec)]
  kept := (l.kept ++ [(l.next, rec)]).drop n
  resetCut := false
  next := next

def Ledger.shrink (l : Ledger) (n : Nat) : Ledger := { l with kept := l.kept.drop n }

def Ledger.reset (l : Ledger) (next : Nat) : Ledger := ⟨l.bound, [], [], false, next⟩

def Ledger.cutReset (l : Ledger) (next : Nat) : Ledger :=
  { l with
    kept := []
    resetCut := true
    next := next }

-- What a call may do to a log, as its reply tells. Entries are evicted from the oldest on, and never
-- all of them; ids only grow.
inductive Ledger.Step : LogOp → LogReply → Ledger → Ledger → Prop where
  | appended (l : Ledger) (rec : List UInt8) (next n : Nat) (hn : n ≤ l.kept.length)
      (hnext : l.next < next) : Step (.append rec) (.ok l.next) l (l.push rec next n)
  | refused (l : Ledger) (rec : List UInt8) (e : Errno) (n : Nat)
      (hn : n = 0 ∨ n < l.kept.length) : Step (.append rec) (.err e) l (l.shrink n)
  | cutAfter (l : Ledger) (rec : List UInt8) (next n : Nat) (hn : n ≤ l.kept.length)
      (hnext : l.next < next) : Step (.append rec) .cut l (l.push rec next n)
  | cutBefore (l : Ledger) (rec : List UInt8) (n : Nat) (hn : n = 0 ∨ n < l.kept.length) :
      Step (.append rec) .cut l (l.shrink n)
  | reset (l : Ledger) (next : Nat) (hnext : l.next < next) : Step .reset (.ok 0) l (l.reset next)
  | resetRefused (l : Ledger) (e : Errno) (n : Nat) (hn : n = 0 ∨ n < l.kept.length) :
      Step .reset (.err e) l (l.shrink n)
  | resetPart (l : Ledger) (n : Nat) (hn : n = 0 ∨ n < l.kept.length) :
      Step .reset .cut l (l.shrink n)
  | resetCut (l : Ledger) (next : Nat) (hnext : l.next < next) :
      Step .reset .cut l (l.cutReset next)
  -- an open that gets to its end succeeds
  | opened (l : Ledger) : Step .open (.ok 0) l l
  | openCut (l : Ledger) : Step .open .cut l l
  | powerOff (l : Ledger) : Step .powerOff .cut l l

inductive Ledger.Steps : List LogCall → List LogReply → Ledger → Ledger → Prop where
  | nil (l : Ledger) : Steps [] [] l l
  | cons {c : LogCall} {cs : List LogCall} {r : LogReply} {rs : List LogReply} {l m k : Ledger}
      (h : Step c.op r l m) (hs : Steps cs rs m k) : Steps (c :: cs) (r :: rs) l k

theorem Ledger.Steps.append {cs cs' : List LogCall} {rs rs' : List LogReply} {l m k : Ledger}
    (hs : Steps cs rs l m) (hs' : Steps cs' rs' m k) : Steps (cs ++ cs') (rs ++ rs') l k := by
  induction hs with
  | nil => exact hs'
  | cons h1 _ ih => exact .cons h1 (ih hs')

-- The record of an append that returned is the last one.
theorem Ledger.Step.last {rec : List UInt8} {id : Nat} {l m : Ledger}
    (h : Step (.append rec) (.ok id) l m) : m.kept.getLast? = some (id, rec) := by
  cases h with
  | appended _ _ _ n hn =>
    rw [Ledger.push, List.drop_append_of_le_length hn]
    simp

@[simp]
theorem Ledger.shrink_zero (l : Ledger) : l.shrink 0 = l := by
  simp [Ledger.shrink]

-- The ledger says what the log holds.
structure Ledger.Tracks (l : Ledger) (d : LogView) : Prop where
  kept : l.kept = d.entries
  next : l.next = d.frontier

theorem Ledger.Tracks.push {l : Ledger} {v : LogView} (h : l.Tracks v) (rec : List UInt8)
    (r2 n : Nat) : (l.push rec r2 n).Tracks ((v.bind rec r2).drop n) where
  kept := by rw [Ledger.push, h.kept, h.next]; rfl
  next := rfl

theorem Ledger.Tracks.shrink {l : Ledger} {v : LogView} (h : l.Tracks v) (n : Nat) :
    (l.shrink n).Tracks (v.drop n) where
  kept := by rw [Ledger.shrink, h.kept]; rfl
  next := h.next

-- The new entry stays below the id reserved next.
theorem LogView.frontier_lt {v : LogView} {rec : List UInt8} {b : Blobs} {r2 n : Nat}
    (hn : n ≤ v.entries.length) (h : Chained cfg b ((v.bind rec r2).drop n)) :
    v.frontier < r2 := by
  refine h.segment.mem_lt (c := (v.frontier, rec)) ?_
  simp only [LogView.drop, LogView.bind]
  rw [List.drop_append_of_le_length hn]
  simp

/-! What holds of a log over a run -/

-- The log is open, or power was lost and it waits on flash.
def InUse (cfg : LogCfg) (g : LogId) (d : LogView) (w : LogWorld) : Prop :=
  (∃ v h, Running cfg g d v [] h w) ∨ w.ram = none ∧ Durable cfg g d w

theorem InUse.durable {d : LogView} {w : LogWorld} (hw : InUse cfg g d w) : Durable cfg g d w := by
  rcases hw with ⟨v, h, hl, _⟩ | ⟨_, hd⟩
  . exact hl.durable
  . exact hd

theorem Running.inUse {d v : LogView} {h : Logring} {w : LogWorld}
    (hw : Running cfg g d v [] h w) : InUse cfg g d w :=
  .inl ⟨v, h, hw⟩

theorem Running.handled {d v : LogView} {h : Logring} {w : LogWorld}
    (hw : Running cfg g d v [] h w) : w.ram ≠ none := by
  rw [hw.2.1]
  exact nofun

theorem Durable.inUse {d : LogView} {w : LogWorld} (hd : Durable cfg g d w) :
    InUse cfg g d (w.setRam none) :=
  .inr ⟨rfl, hd⟩

theorem handle_closed {w : LogWorld} (hw : w.ram = none) : handle w = (.err Errno.EINVAL, w) := by
  unfold handle getRam
  rw [Proc.bind_run, Proc.read_run, Proc.step, hw]
  rfl

theorem logringAppend_closed {w : LogWorld} (hw : w.ram = none) (rec : List UInt8) :
    logringAppend cfg rec w = (.err Errno.EINVAL, w) :=
  Proc.bind_err (handle_closed hw)

theorem logringReset_closed {w : LogWorld} (hw : w.ram = none) :
    logringReset cfg w = (.err Errno.EINVAL, w) := by
  have hshrink : shrink cfg (w.top + 1 + 1) w = (.err Errno.EINVAL, w) :=
    Proc.bind_err (handle_closed hw)
  have hfuel : chainFuel w = (.ok (w.top + 1), w) := rfl
  unfold logringReset
  rw [Proc.bind_ok hfuel]
  exact Proc.bind_err hshrink

-- What one call makes of the log, and of the ledger if nothing went badly wrong.
structure Stepped (cfg : LogCfg) (g : LogId) (op : LogOp) (d : LogView) (r : LogReply)
    (w : LogWorld) (d' : LogView) : Prop where
  inUse : InUse cfg g d' w
  handle : ∀ a, r = .ok a → w.ram ≠ none
  ledger : Calm w.history → ∀ l : Ledger, l.Tracks d → ∃ l', Ledger.Step op r l l' ∧ l'.Tracks d'

-- An open succeeds, unless power is lost.
theorem logringOpen_step {d : LogView} {w : LogWorld} (hw : Durable cfg g d w)
    (hf : faithful.holds (logStep cfg g.root w c).2) (hop : c.op = .open) :
    (logStep cfg g.root w c).1 = .ok 0 ∧
        (∃ h, Running cfg g d d [] h (logStep cfg g.root w c).2 ∧ h.sinceCkpt = 0) ∨
      (logStep cfg g.root w c).1 = .cut ∧ InUse cfg g d (logStep cfg g.root w c).2 := by
  have hspec : Spec faithful (Durable cfg g d) (LogOp.open.run cfg g.root)
      ⟨fun r s => r = 0 ∧ ∃ h, Running cfg g d d [] h s ∧ h.sinceCkpt = 0, fun _ _ => False,
        Durable cfg g d⟩ := by
    refine logringOpen_spec.bind (fun _ => ?_) (fun _ _ h => h) (fun _ h => h)
    exact Spec.ret fun s hs => ⟨rfl, hs⟩
  have hpost := hspec (w.enterLog c) hw
  simp only [logStep, hop] at hf ⊢
  generalize LogOp.open.run cfg g.root (w.enterLog c) = o at hpost hf
  obtain ⟨o, s⟩ := o
  cases o with
  | ok r =>
    obtain ⟨rfl, hs⟩ := hpost hf
    exact .inl ⟨rfl, hs⟩
  | err e => exact (hpost hf).elim
  | cut => exact .inr ⟨rfl, (hpost hf).inUse⟩

theorem logringOpen_stepped {d : LogView} {w : LogWorld} (hw : Durable cfg g d w)
    (hf : faithful.holds (logStep cfg g.root w c).2) (hop : c.op = .open) :
    Stepped cfg g .open d (logStep cfg g.root w c).1 (logStep cfg g.root w c).2 d := by
  rcases logringOpen_step hw hf hop with ⟨hr, h, hrun, _⟩ | ⟨hr, huse⟩
  . exact ⟨hrun.inUse, fun _ _ => hrun.handled, fun _ l hl => ⟨l, hr ▸ .opened l, hl⟩⟩
  . refine ⟨huse, fun a ha => ?_, fun _ l hl => ⟨l, hr ▸ .openCut l, hl⟩⟩
    rw [hr] at ha
    cases ha

theorem logringAppend_stepped (hcfg : cfg.Valid) {d : LogView} {w : LogWorld} {rec : List UInt8}
    (hw : InUse cfg g d w) (hf : faithful.holds (logStep cfg g.root w c).2)
    (hop : c.op = .append rec) :
    ∃ d', Stepped cfg g (.append rec) d (logStep cfg g.root w c).1 (logStep cfg g.root w c).2 d' := by
  simp only [logStep, hop] at hf ⊢
  rcases hw with ⟨v, h, hrun⟩ | ⟨hram, hd⟩
  . have hpost := logringAppend_spec hcfg rec _ (w.enterLog c) ⟨hrun, Iff.rfl⟩
    have hcalm : ∀ s : LogWorld, w.enterLog c ≤ s → Calm s.history → d = v := by
      intro s hle hc
      exact (hrun.1.in_step fun ev hev => hc ev (List.IsSuffix.subset hle hev)).1
    have hgrows := (logringAppend cfg rec).grows (w.enterLog c)
    simp only [LogOp.run] at hf ⊢
    generalize logringAppend cfg rec (w.enterLog c) = o at hpost hf hgrows
    obtain ⟨o, s⟩ := o
    cases o with
    | ok id =>
      obtain ⟨rfl, _, n, r2, h1, ⟨hn, _⟩, _, _, _, _, hcases⟩ := hpost hf
      -- wherever the append stopped evicting, the log is a rest of the one with the new entry
      have hfinish : ∀ k d' h', k ≤ v.entries.length →
          Running cfg g d' ((v.bind rec r2).drop k) [] h' s →
          ∃ d', Stepped cfg g (.append rec) d (.ok v.frontier) s d' := by
        intro k d' h' hk hrun'
        refine ⟨d', hrun'.inUse, fun _ _ => hrun'.handled, fun hc l hl => ?_⟩
        rw [hcalm s hgrows hc] at hl
        have hlt := LogView.frontier_lt hk hrun'.1.chain
        rw [← hl.next] at hlt ⊢
        refine ⟨_, .appended l rec r2 k (by rw [hl.kept]; exact hk) hlt, ?_⟩
        rw [(hrun'.1.in_step hc).1]
        exact hl.push rec r2 k
      have hlen : ((v.drop n).bind rec r2).entries.length = v.entries.length - n + 1 := by
        simp [LogView.bind, LogView.drop]
      rw [LogView.drop_bind hn] at hcases hlen
      rcases hcases with ⟨_, d', hr⟩ | ⟨m, h2, _, hev, hr, _⟩ | ⟨_, m, h2, d', hm, hr⟩
      . exact hfinish n d' _ (by omega) hr
      . rw [LogView.drop_drop] at hr
        have := hev.small
        exact hfinish (n + m) _ h2 (by omega) hr
      . rw [LogView.drop_drop] at hr
        exact hfinish (n + m) d' h2 (by omega) hr
    | err e =>
      obtain ⟨n, d', h', hn, _, hr⟩ := hpost hf
      refine ⟨d', hr.inUse, by rintro _ ⟨⟩, fun hc l hl => ?_⟩
      rw [hcalm s hgrows hc] at hl
      refine ⟨_, .refused l rec e n (by rw [hl.kept]; exact hn), ?_⟩
      rw [(hr.1.in_step hc).1]
      exact hl.shrink n
    | cut =>
      obtain ⟨d', hd, hcut⟩ := hpost hf
      refine ⟨d', hd.inUse, by rintro _ ⟨⟩, fun hc l hl => ?_⟩
      rw [hcalm s hgrows hc] at hl
      rcases hcut hc with ⟨n, hn, rfl⟩ | ⟨n, r2, hn, rfl⟩
      . exact ⟨_, .cutBefore l rec n (by rw [hl.kept]; exact hn), hl.shrink n⟩
      . obtain ⟨run, r, hf⟩ := hd
        have hlt := LogView.frontier_lt hn hf.chain
        rw [← hl.next] at hlt
        exact ⟨_, .cutAfter l rec r2 n (by rw [hl.kept]; exact hn) hlt, hl.push rec r2 n⟩
  . have hclosed : logringAppend cfg rec (w.enterLog c) = (.err Errno.EINVAL, w.enterLog c) :=
      logringAppend_closed (show (w.enterLog c).ram = none from hram) rec
    simp only [LogOp.run, hclosed]
    refine ⟨d, .inr ⟨hram, hd⟩, by rintro _ ⟨⟩,
      fun _ l hl => ⟨l.shrink 0, ?_, by rw [Ledger.shrink_zero]; exact hl⟩⟩
    exact .refused l rec _ 0 (.inl rfl)

theorem logringReset_stepped (hcfg : cfg.Valid) {d : LogView} {w : LogWorld}
    (hw : InUse cfg g d w) (hf : faithful.holds (logStep cfg g.root w c).2)
    (hop : c.op = .reset) :
    ∃ d', Stepped cfg g .reset d (logStep cfg g.root w c).1 (logStep cfg g.root w c).2 d' := by
  simp only [logStep, hop] at hf ⊢
  rcases hw with ⟨v, h, hrun⟩ | ⟨hram, hd⟩
  . have hspec : Spec faithful (Running cfg g d v [] h) (LogOp.reset.run cfg g.root)
        ⟨fun r s => r = 0 ∧ ∃ first h', v.frontier < first ∧
          Running cfg g ⟨[], first⟩ ⟨[], first⟩ [] h' s,
          fun _ s => ∃ d' v' h', Running cfg g d' v' [] h' s ∧
            (Calm s.history → ∃ n, (n = 0 ∨ n < v.entries.length) ∧ v' = v.drop n),
          ResetCut cfg g v⟩ := by
      refine (logringReset_spec hcfg).bind (fun _ => ?_) (fun _ _ h => h) (fun _ h => h)
      refine Spec.ret fun s hs => ?_
      exact ⟨rfl, hs⟩
    have hpost := hspec (w.enterLog c) hrun
    have hcalm : ∀ s : LogWorld, w.enterLog c ≤ s → Calm s.history → d = v := by
      intro s hle hc
      exact (hrun.1.in_step fun ev hev => hc ev (List.IsSuffix.subset hle hev)).1
    have hgrows := (LogOp.reset.run cfg g.root).grows (w.enterLog c)
    generalize LogOp.reset.run cfg g.root (w.enterLog c) = o at hpost hf hgrows
    obtain ⟨o, s⟩ := o
    cases o with
    | ok r =>
      obtain ⟨rfl, first, h', hlt, hr⟩ := hpost hf
      refine ⟨_, hr.inUse, fun _ _ => hr.handled, fun hc l hl => ?_⟩
      rw [hcalm s hgrows hc] at hl
      exact ⟨_, .reset l first (by rw [hl.next]; exact hlt), rfl, rfl⟩
    | err e =>
      obtain ⟨d', v', h', hr, hv'⟩ := hpost hf
      refine ⟨d', hr.inUse, nofun, fun hc l hl => ?_⟩
      obtain ⟨n, hn, rfl⟩ := hv' hc
      rw [hcalm s hgrows hc] at hl
      refine ⟨_, .resetRefused l e n (by rw [hl.kept]; exact hn), ?_⟩
      rw [(hr.1.in_step hc).1]
      exact hl.shrink n
    | cut =>
      obtain ⟨d', hd, hcut⟩ := hpost hf
      refine ⟨d', hd.inUse, nofun, fun hc l hl => ?_⟩
      rw [hcalm s hgrows hc] at hl
      rcases hcut hc with ⟨n, hn, rfl⟩ | ⟨hnil, hlt⟩
      . exact ⟨_, .resetPart l n (by rw [hl.kept]; exact hn), hl.shrink n⟩
      . exact ⟨_, .resetCut l d'.frontier (by rw [hl.next]; exact hlt), hnil.symm, rfl⟩
  . have hclosed : LogOp.reset.run cfg g.root (w.enterLog c) = (.err Errno.EINVAL, w.enterLog c) :=
      Proc.bind_err (logringReset_closed hram)
    simp only [hclosed]
    refine ⟨d, .inr ⟨hram, hd⟩, nofun,
      fun _ l hl => ⟨l.shrink 0, ?_, by rw [Ledger.shrink_zero]; exact hl⟩⟩
    exact .resetRefused l _ 0 (.inl rfl)

theorem logStep_stepped (hcfg : cfg.Valid) {d : LogView} {w : LogWorld} (hw : InUse cfg g d w)
    (hf : faithful.holds (logStep cfg g.root w c).2) :
    ∃ d', Stepped cfg g c.op d (logStep cfg g.root w c).1 (logStep cfg g.root w c).2 d' := by
  cases hop : c.op with
  | «open» => exact ⟨d, logringOpen_stepped hw.durable hf hop⟩
  | append rec => exact logringAppend_stepped hcfg hw hf hop
  | reset => exact logringReset_stepped hcfg hw hf hop
  | powerOff =>
    simp only [logStep, hop]
    exact ⟨d, hw.durable.inUse, nofun, fun _ l hl => ⟨l, .powerOff l, hl⟩⟩

-- The same over a whole run.
theorem runLog_stepped (hcfg : cfg.Valid) (cs : List LogCall) {d : LogView} {w : LogWorld}
    (hw : InUse cfg g d w) (hf : faithful.holds (runLog cfg g.root w cs).2) :
    ∃ d', InUse cfg g d' (runLog cfg g.root w cs).2 ∧
      (Calm (runLog cfg g.root w cs).2.history → ∀ l : Ledger, l.Tracks d →
        ∃ l', Ledger.Steps cs (runLog cfg g.root w cs).1 l l' ∧ l'.Tracks d') := by
  induction cs generalizing d w with
  | nil => exact ⟨d, hw, fun _ l hl => ⟨l, .nil l, hl⟩⟩
  | cons c cs ih =>
    have hgrows := runLog_grows cfg g.root (logStep cfg g.root w c).2 cs
    obtain ⟨d1, h1⟩ := logStep_stepped hcfg hw (faithful.anti hgrows hf)
    obtain ⟨d2, h2, h3⟩ := ih h1.inUse hf
    refine ⟨d2, h2, fun hc l hl => ?_⟩
    have hc1 : Calm (logStep cfg g.root w c).2.history :=
      fun ev hev => hc ev (List.IsSuffix.subset hgrows hev)
    obtain ⟨l1, hstep, hl1⟩ := h1.ledger hc1 l hl
    obtain ⟨l2, hsteps, hl2⟩ := h3 hc l1 hl1
    exact ⟨l2, .cons hstep hsteps, hl2⟩

end KeyValueDb.Containers
