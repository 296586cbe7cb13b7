import Mathlib.Data.List.TakeWhile
import KeyValueDb.Containers.LogringHistory

/-!
Destroying a log. The root goes first and the chain from its oldest entry on, so that a destroy which
is run again finds the rest of the chain only if the one before it has deleted an end of the chain.
-/

namespace KeyValueDb.Containers

variable {cfg : LogCfg} {w : LogWorld}

/-! Deletes and their turns -/

-- Which of the ids are deleted, when they are deleted one by one.
def felled : List Nat → List Turn → List Nat
  | [], _ => []
  | id :: ids, ts =>
    match ts.headD .done with
    | .done => id :: felled ids ts.tail
    | .error _ landed => if landed then id :: felled ids ts.tail else felled ids ts.tail
    | .cut landed => if landed then [id] else []

-- Power is lost in one of the first `n` turns.
def stopped (n : Nat) (ts : List Turn) : Prop := ∃ landed, Turn.cut landed ∈ ts.take n

def Blobs.without (b : Blobs) (ids : List Nat) : Blobs := fun id => if id ∈ ids then none else b id

theorem Blobs.without_nil (b : Blobs) : b.without [] = b := rfl

theorem Blobs.without_append (b : Blobs) (l l' : List Nat) :
    (b.without l).without l' = b.without (l ++ l') := by
  funext id
  simp only [Blobs.without, List.mem_append]
  by_cases h : id ∈ l
  . simp [h]
  . simp [h]

theorem Blobs.update_eq_without (b : Blobs) (id : Nat) :
    Function.update b id none = b.without [id] := by
  funext i
  by_cases h : i = id
  . rw [h, Function.update_self]
    simp [Blobs.without]
  . rw [Function.update_of_ne h]
    simp [Blobs.without, h]

theorem felled_subset (ids : List Nat) (ts : List Turn) : felled ids ts ⊆ ids := by
  induction ids generalizing ts with
  | nil => exact fun _ h => h
  | cons id ids ih =>
    have hrest : felled ids ts.tail ⊆ id :: ids := List.Subset.trans (ih ts.tail) (List.subset_cons_self _ _)
    rw [felled]
    split
    . exact List.cons_subset_cons id (ih _)
    . split
      . exact List.cons_subset_cons id (ih _)
      . exact hrest
    . split
      . simp
      . simp

theorem felled_nil_turns (ids : List Nat) : felled ids [] = ids := by
  induction ids with
  | nil => rfl
  | cons id ids ih => exact congrArg _ ih

-- A sequence of deletes has run.
structure Felled (w : LogWorld) (ids : List Nat) (r : Out Errno Unit × LogWorld) : Prop where
  blobs : r.2.blobs = w.blobs.without (felled ids w.turns)
  reads : r.2.reads = w.reads
  ram : r.2.ram = w.ram
  top : r.2.top = w.top
  reply : stopped ids.length w.turns ∧ r.1 = .cut ∨
    ¬ stopped ids.length w.turns ∧ r.1 = .ok () ∧ r.2.turns = w.turns.drop ids.length

theorem Felled.nothing (w : LogWorld) : Felled w [] (.ok (), w) where
  blobs := rfl
  reads := rfl
  ram := rfl
  top := rfl
  reply := .inr ⟨fun ⟨_, h⟩ => by simp at h, rfl, rfl⟩

theorem stopped_succ {n : Nat} {ts : List Turn} :
    stopped (n + 1) ts ↔ (∃ landed, ts.headD .done = .cut landed) ∨ stopped n ts.tail := by
  cases ts with
  | nil => simp [stopped]
  | cons t ts => simp [stopped, exists_or, eq_comm]

theorem blobDbDelete_run {id : Nat} (hb : w.blobs id ≠ none) :
    blobDbDelete id w = (w.nextTurn.outcome, w.edit id none w.nextTurn) := by
  have hsome : (w.blobs id).isSome = true := Option.isSome_iff_ne_none.mpr hb
  unfold blobDbDelete
  rw [Proc.bind_run, Proc.read_run, Proc.step, hsome]
  rfl

-- One more delete, in front of the others.
theorem Felled.delete {id : Nat} {ids : List Nat} {f : Except Errno Unit → L Unit}
    (hb : w.blobs id ≠ none)
    (hf : (∀ landed, w.nextTurn ≠ .cut landed) → ∀ r, Felled (w.edit id none w.nextTurn) ids
      (f r (w.edit id none w.nextTurn))) :
    Felled w (id :: ids) ((Proc.attempt (blobDbDelete id) >>= f) w) := by
  have hturns : (w.edit id none w.nextTurn).turns = w.turns.tail := rfl
  have hblobs : ∀ l, (w.edit id none w.nextTurn).blobs.without l =
      w.blobs.without (if w.nextTurn.landed then id :: l else l) := by
    intro l
    simp only [World.edit]
    split
    . rw [Blobs.update_eq_without, Blobs.without_append, List.singleton_append]
    . rfl
  have hgo : (∀ landed, w.nextTurn ≠ .cut landed) →
      felled (id :: ids) w.turns =
        (if w.nextTurn.landed then id :: felled ids w.turns.tail else felled ids w.turns.tail) →
      ∀ r, Felled w (id :: ids) (f r (w.edit id none w.nextTurn)) := by
    intro hno hfelled r
    have h := hf hno r
    refine ⟨?_, h.reads, h.ram, h.top, ?_⟩
    . rw [h.blobs, hblobs, hturns, hfelled]
    . have hstop : stopped (id :: ids).length w.turns ↔ stopped ids.length w.turns.tail := by
        rw [List.length_cons, stopped_succ]
        constructor
        . rintro (⟨landed, hcut⟩ | hs)
          . exact absurd hcut (hno landed)
          . exact hs
        . exact .inr
      rw [hstop]
      rcases h.reply with ⟨hs, hr⟩ | ⟨hs, hr, ht⟩
      . exact .inl ⟨hs, hr⟩
      . refine .inr ⟨hs, hr, ?_⟩
        rw [ht, hturns, List.drop_tail]
        rfl
  rw [Proc.bind_run, Proc.attempt_run, blobDbDelete_run hb]
  cases ht : w.nextTurn with
  | done =>
    rw [ht] at hgo
    exact hgo (by rintro _ ⟨⟩) (by rw [felled, show w.turns.headD .done = .done from ht]; rfl) (.ok ())
  | error e landed =>
    rw [ht] at hgo
    refine hgo (by rintro _ ⟨⟩) ?_ (.error e)
    rw [felled, show w.turns.headD .done = .error e landed from ht]
    rfl
  | cut landed =>
    rw [ht] at hblobs
    refine ⟨?_, rfl, rfl, rfl, .inl ⟨?_, rfl⟩⟩
    . rw [felled, show w.turns.headD .done = .cut landed from ht]
      exact hblobs []
    . rw [List.length_cons, stopped_succ]
      exact .inl ⟨landed, ht⟩

theorem felled_append_stopped {l : List Nat} (l' : List Nat) {ts : List Turn}
    (h : stopped l.length ts) : felled (l ++ l') ts = felled l ts := by
  induction l generalizing ts with
  | nil =>
    obtain ⟨_, h⟩ := h
    simp at h
  | cons id l ih =>
    rw [List.length_cons, stopped_succ] at h
    rw [List.cons_append, felled, felled]
    cases ht : ts.headD .done with
    | done => rw [ih (h.resolve_left fun ⟨_, hc⟩ => by rw [ht] at hc; cases hc)]
    | error e landed => rw [ih (h.resolve_left fun ⟨_, hc⟩ => by rw [ht] at hc; cases hc)]
    | cut landed => rfl

theorem felled_append {l : List Nat} (l' : List Nat) {ts : List Turn} (h : ¬ stopped l.length ts) :
    felled (l ++ l') ts = felled l ts ++ felled l' (ts.drop l.length) := by
  induction l generalizing ts with
  | nil => rfl
  | cons id l ih =>
    rw [List.length_cons, stopped_succ, not_or] at h
    rw [List.cons_append, felled, felled, List.length_cons, ← List.drop_tail, ih h.2]
    cases ht : ts.headD .done with
    | done => rfl
    | error e landed => cases landed <;> rfl
    | cut landed => exact absurd ⟨landed, ht⟩ h.1

theorem stopped_add {m n : Nat} {ts : List Turn} :
    stopped (m + n) ts ↔ stopped m ts ∨ stopped n (ts.drop m) := by
  simp only [stopped, List.take_add, List.mem_append, exists_or]

-- Two sequences, one after the other.
theorem Felled.andThen {l l' : List Nat} {x : L Unit} {f : Unit → L Unit} (hx : Felled w l (x w))
    (hf : Felled (x w).2 l' (f () (x w).2)) : Felled w (l ++ l') ((x >>= f) w) := by
  rw [Proc.bind_run]
  generalize x w = r at hx hf
  obtain ⟨o, s⟩ := r
  rcases hx.reply with ⟨hs, rfl⟩ | ⟨hs, rfl, ht⟩
  . refine ⟨?_, hx.reads, hx.ram, hx.top, .inl ⟨?_, rfl⟩⟩
    . rw [felled_append_stopped l' hs]
      exact hx.blobs
    . rw [List.length_append, stopped_add]
      exact .inl hs
  . have hturns : s.turns = w.turns.drop l.length := ht
    refine ⟨?_, hf.reads.trans hx.reads, hf.ram.trans hx.ram, hf.top.trans hx.top, ?_⟩
    . show (f () s).2.blobs = _
      rw [hf.blobs, hx.blobs, Blobs.without_append, felled_append l' hs, hturns]
    . have hstop : stopped (l ++ l').length w.turns ↔ stopped l'.length s.turns := by
        rw [List.length_append, stopped_add, hturns]
        exact or_iff_right hs
      rw [hstop]
      rcases hf.reply with ⟨hs', hr⟩ | ⟨hs', hr, ht'⟩
      . exact .inl ⟨hs', hr⟩
      . refine .inr ⟨hs', hr, ?_⟩
        show (f () s).2.turns = _
        rw [ht', hturns, List.drop_drop, List.length_append]

/-! The procedures -/

theorem readBlob_run {α : Type} (hr : w.reads = []) (id : Nat) (f : Blobs → Out Errno α) :
    (readBlob id f : L α) w = (f w.blobs, w) := by
  have hdone : w.readDone = w := by
    simp only [World.readDone, hr, List.tail_nil]
    rw [← hr]
  simp only [readBlob, hr, List.headD_nil]
  rw [hdone]

theorem entryRead_run (hr : w.reads = []) {id nxt : Nat} {rec : List UInt8}
    (hn : entryNode cfg w.blobs id = some (rec, nxt)) :
    entryRead cfg id none w = (.ok (nxt, rec), w) := by
  obtain ⟨buf, hb, hlen, hd⟩ := entryNode_some hn
  have hget : (blobDbGet id cfg.maxPayload : L (List UInt8)) w = (.ok buf, w) := by
    rw [blobDbGet, readBlob_run hr]
    simp only [hb]
    rw [if_pos hlen]
  unfold entryRead
  rw [Proc.bind_ok hget, hd]
  rfl

theorem entryRead_gone (hr : w.reads = []) {id : Nat} (hb : w.blobs id = none) :
    entryRead cfg id none w = (.err Errno.ENOENT, w) := by
  have hget : (blobDbGet id cfg.maxPayload : L (List UInt8)) w = (.err Errno.ENOENT, w) := by
    rw [blobDbGet, readBlob_run hr]
    simp only [hb]
  exact Proc.bind_err hget

theorem collectRun_run (hr : w.reads = []) {stop last : Nat} :
    ∀ (n cur : Nat) (run : List LogEntry), Segment (entryNode cfg w.blobs) cur run last →
      (last = stop ∨ w.blobs last = none) → (∀ e ∈ run, e.1 ≠ stop) → run.length ≤ n →
      collectRun cfg n cur stop w = (.ok (run.map Prod.fst), w) := by
  intro n
  induction n with
  | zero =>
    intro cur run _ _ _ hlen
    have hnil : run = [] := List.length_eq_zero_iff.mp (by omega)
    subst hnil
    rfl
  | succ n ih =>
    intro cur run hseg hlast hne hlen
    cases run with
    | nil =>
      rw [collectRun]
      by_cases hcur : cur = stop
      . rw [if_pos hcur]
        rfl
      . rw [if_neg hcur]
        have hgone : w.blobs cur = none := by
          rcases hlast with hl | hl
          . exact absurd (hseg.trans hl) hcur
          . exact hseg ▸ hl
        rw [Proc.bind_run, Proc.attempt_run, entryRead_gone hr hgone]
        rfl
    | cons e run =>
      obtain ⟨rfl, nxt, hnode, hlt, hrest⟩ := hseg
      have hgo := ih nxt run hrest hlast (fun c hc => hne c (List.mem_cons_of_mem _ hc))
        (by simpa using hlen)
      rw [collectRun, if_neg (hne e List.mem_cons_self), Proc.bind_run, Proc.attempt_run,
        entryRead_run hr hnode]
      exact Proc.bind_ok hgo

theorem deleteAll_felled {ids : List Nat} (hnd : ids.Nodup) (hb : ∀ id ∈ ids, w.blobs id ≠ none) :
    Felled w ids (deleteAll ids w) := by
  induction ids generalizing w with
  | nil => exact Felled.nothing w
  | cons id ids ih =>
    rw [List.nodup_cons] at hnd
    refine Felled.delete (hb id List.mem_cons_self) fun _ _ => ih hnd.2 fun i hi => ?_
    have hne : i ≠ id := fun he => hnd.1 (he ▸ hi)
    have hlive := hb i (List.mem_cons_of_mem _ hi)
    simp only [World.edit]
    split
    . rwa [Function.update_of_ne hne]
    . exact hlive

theorem runDelete_felled (hr : w.reads = []) {run : List LogEntry} {evictFrom evictTo last : Nat}
    (hseg : Segment (entryNode cfg w.blobs) evictFrom run last)
    (hlast : last = evictTo ∨ w.blobs last = none) (hne : ∀ e ∈ run, e.1 ≠ evictTo)
    (hlen : run.length ≤ cfg.k) :
    Felled w (run.map Prod.fst).reverse (runDelete cfg evictFrom evictTo w) := by
  unfold runDelete
  rw [Proc.bind_ok (collectRun_run hr cfg.k evictFrom run hseg hlast hne hlen)]
  refine deleteAll_felled ?_ fun id hid => ?_
  . rw [List.nodup_reverse]
    exact (List.pairwise_map.mpr hseg.ascending).imp fun h => h.ne
  . rw [List.mem_reverse, List.mem_map] at hid
    obtain ⟨e, he, rfl⟩ := hid
    obtain ⟨n, hn⟩ := hseg.node_mem he
    exact entryNode_bound hn

-- The loop gets to where the chain ends.
theorem destroyChain_felled {nextFree last : Nat} {chain : List LogEntry} {cur fuel : Nat}
    (hr : w.reads = []) (hseg : Segment (entryNode cfg w.blobs) cur chain last)
    (hlast : last = 0 ∨ last = nextFree ∨ w.blobs last = none)
    (hne : ∀ e ∈ chain, e.1 ≠ 0 ∧ e.1 ≠ nextFree) (hfuel : chain.length < fuel) :
    Felled w (chain.map Prod.fst) (destroyChain cfg nextFree fuel cur w) := by
  induction chain generalizing w cur fuel with
  | nil =>
    obtain rfl : cur = last := hseg
    cases fuel with
    | zero => simp at hfuel
    | succ fuel =>
      rw [destroyChain]
      by_cases hcur : cur ≠ 0 ∧ cur ≠ nextFree
      . have hgone : w.blobs cur = none := (hlast.resolve_left hcur.1).resolve_left hcur.2
        rw [if_pos hcur, Proc.bind_run, Proc.attempt_run, entryRead_gone hr hgone]
        exact Felled.nothing w
      . rw [if_neg hcur]
        exact Felled.nothing w
  | cons e chain ih =>
    cases fuel with
    | zero => simp at hfuel
    | succ fuel =>
      obtain ⟨rfl, nxt, hnode, hlt, hrest⟩ := hseg
      rw [destroyChain, if_pos (hne e List.mem_cons_self), Proc.bind_run, Proc.attempt_run,
        entryRead_run hr hnode]
      refine Felled.delete (entryNode_bound hnode) fun _ _ => ih hr ?_ ?_ ?_ ?_
      . -- the entries after this one are as they were
        refine hrest.congr fun c hc => entryNode_congr ?_
        have hgt : e.1 < c.1 := hlt.trans_le (hrest.le_mem hc)
        simp only [World.edit]
        split
        . exact Function.update_of_ne hgt.ne' _ _
        . rfl
      . refine hlast.imp id fun h => h.imp id fun hnone => ?_
        simp only [World.edit]
        split
        . by_cases he : last = e.1
          . rw [he, Function.update_self]
          . rwa [Function.update_of_ne he]
        . exact hnone
      . exact fun c hc => hne c (List.mem_cons_of_mem _ hc)
      . simpa using hfuel

theorem rootLoad_run (hr : w.reads = []) {root : Nat} {r : ClogRoot}
    (hb : w.blobs root = some (rootImage r)) (hfits : r.Fits) : rootLoad root w = (.ok r, w) := by
  have hget : (blobDbGet root clogRootLen : L (List UInt8)) w = (.ok (rootImage r), w) := by
    rw [blobDbGet, readBlob_run hr]
    simp only [hb]
    rw [if_pos (by simp)]
  unfold rootLoad
  rw [Proc.bind_run, Proc.attempt_run, hget]
  show Proc.ofExcept (decodeRoot (rootImage r)) w = _
  rw [decodeRoot_rootImage hfits]
  rfl

theorem rootLoad_gone (hr : w.reads = []) {root : Nat} (hb : w.blobs root = none) :
    rootLoad root w = (.err Errno.ENOENT, w) := by
  have hget : (blobDbGet root clogRootLen : L (List UInt8)) w = (.err Errno.ENOENT, w) := by
    rw [blobDbGet, readBlob_run hr]
    simp only [hb]
  unfold rootLoad
  rw [Proc.bind_run, Proc.attempt_run, hget]
  rfl

theorem blobDbDelete_gone {id : Nat} (hb : w.blobs id = none) :
    blobDbDelete id w = (.err Errno.ENOENT, w) := by
  unfold blobDbDelete
  rw [Proc.bind_run, Proc.read_run, Proc.step, hb]
  rfl

/-! What there is to destroy -/

-- The ids of the entries that can be read one after the other from `cur` on, up to `stop`.
def chainFrom (cfg : LogCfg) (b : Blobs) (stop : Nat) : Nat → Nat → List Nat
  | 0, _ => []
  | fuel + 1, cur =>
    if cur = 0 ∨ cur = stop then []
    else
      match entryNode cfg b cur with
      | none => []
      | some e => cur :: chainFrom cfg b stop fuel e.2

def rootAt (b : Blobs) (root : Nat) : Option ClogRoot :=
  match b root with
  | none => none
  | some buf => (decodeRoot buf).toOption

-- The chain that the handle leads to.
def handleChain (cfg : LogCfg) (h : Logring) (w : LogWorld) : List Nat :=
  chainFrom cfg w.blobs h.nextFree (w.top + 1) h.headId

-- The chain that the root leads to.
def rootChain (cfg : LogCfg) (root : Nat) (w : LogWorld) : List Nat :=
  match rootAt w.blobs root with
  | none => []
  | some r =>
    chainFrom cfg w.blobs 0 (w.top + 1) (if r.headId = 0 then r.waypointId else r.headId)

-- The run of the pending eviction.
def rootRun (cfg : LogCfg) (root : Nat) (w : LogWorld) : List Nat :=
  match rootAt w.blobs root with
  | none => []
  | some r => if r.evictFrom = 0 then [] else chainFrom cfg w.blobs r.evictTo cfg.k r.evictFrom

theorem chainFrom_eq {b : Blobs} {stop last : Nat} {cs : List LogEntry} {cur fuel : Nat}
    (hseg : Segment (entryNode cfg b) cur cs last) (hlast : last = 0 ∨ last = stop ∨ b last = none)
    (hne : ∀ e ∈ cs, e.1 ≠ 0 ∧ e.1 ≠ stop) (hfuel : cs.length ≤ fuel) :
    chainFrom cfg b stop fuel cur = cs.map Prod.fst := by
  induction fuel generalizing cur cs with
  | zero =>
    have hnil : cs = [] := List.length_eq_zero_iff.mp (by omega)
    subst hnil
    rfl
  | succ fuel ih =>
    rw [chainFrom]
    cases cs with
    | nil =>
      obtain rfl : cur = last := hseg
      by_cases hcur : cur = 0 ∨ cur = stop
      . rw [if_pos hcur]
        rfl
      . rw [not_or] at hcur
        have hnone : b cur = none := (hlast.resolve_left hcur.1).resolve_left hcur.2
        rw [if_neg (not_or.mpr hcur)]
        simp only [entryNode, hnone]
        rfl
    | cons e cs =>
      obtain ⟨rfl, nxt, hnode, _, hrest⟩ := hseg
      rw [if_neg (not_or.mpr (hne e List.mem_cons_self)), hnode]
      simp only [List.map_cons, List.cons.injEq, true_and]
      exact ih hrest (fun c hc => hne c (List.mem_cons_of_mem _ hc)) (by simpa using hfuel)

-- The flash before the first destroy: the root, the run it still names and the chain of the handle.
structure Sought (cfg : LogCfg) (h : Logring) (r : ClogRoot) (run chain : List LogEntry) (b : Blobs)
    (top : Nat) : Prop where
  root : b h.root = some (rootImage r)
  fits : r.Fits
  chain_seg : ∃ last, Segment (entryNode cfg b) h.headId chain last ∧ (last = 0 ∨ last = h.nextFree)
  chain_ne : ∀ e ∈ chain, e.1 ≠ 0 ∧ e.1 ≠ h.nextFree
  chain_len : chain.length ≤ top
  run_none : r.evictFrom = 0 → run = []
  run_seg : r.evictFrom ≠ 0 → ∃ stop, Segment (entryNode cfg b) r.evictFrom run stop ∧
    (stop = r.evictTo ∨ b stop = none)
  run_ne : ∀ e ∈ run, e.1 ≠ 0 ∧ e.1 ≠ r.evictTo
  run_len : run.length ≤ cfg.k
  above : ∀ e, e ∈ run ∨ e ∈ chain → h.root < e.1
  apart : ∀ e ∈ run, ∀ c ∈ chain, e.1 < c.1

-- Blobs have gone, and nothing else has changed.
structure Fewer (h : Logring) (b : Blobs) (top : Nat) (w : LogWorld) : Prop where
  blobs : ∀ id, w.blobs id = b id ∨ w.blobs id = none
  top : w.top = top
  ram : w.ram = some h

variable {h : Logring} {r : ClogRoot} {run chain : List LogEntry} {b : Blobs} {top : Nat}

theorem Segment.fewer {a last : Nat} {cs : List LogEntry} (hseg : Segment (entryNode cfg b) a cs last)
    (hw : Fewer h b top w) :
    ∃ z, Segment (entryNode cfg w.blobs) a (cs.takeWhile fun e => (w.blobs e.1).isSome) z ∧
      (z = last ∨ w.blobs z = none) := by
  induction cs generalizing a with
  | nil => exact ⟨a, rfl, .inl hseg⟩
  | cons e cs ih =>
    obtain ⟨rfl, nxt, hnode, hlt, hrest⟩ := hseg
    by_cases hlive : w.blobs e.1 = none
    . refine ⟨e.1, ?_, .inr hlive⟩
      rw [List.takeWhile_cons_of_neg (by simp [hlive])]
      rfl
    . obtain ⟨z, hz, hend⟩ := ih hrest
      refine ⟨z, ?_, hend⟩
      rw [List.takeWhile_cons_of_pos (by simpa [Option.isSome_iff_ne_none] using hlive)]
      have hsame := (hw.blobs e.1).resolve_right hlive
      exact ⟨rfl, nxt, (entryNode_congr hsame).trans hnode, hlt, hz⟩

-- The entries of the chain that the handle still leads to.
def reachable (w : LogWorld) (chain : List LogEntry) : List LogEntry :=
  chain.takeWhile fun e => (w.blobs e.1).isSome

theorem reachable_congr {s : LogWorld} {chain : List LogEntry}
    (hsame : ∀ e ∈ chain, s.blobs e.1 = w.blobs e.1) : reachable s chain = reachable w chain := by
  induction chain with
  | nil => rfl
  | cons e chain ih =>
    have hrest := ih fun c hc => hsame c (List.mem_cons_of_mem _ hc)
    simp only [reachable] at hrest ⊢
    rw [List.takeWhile_cons, List.takeWhile_cons, hsame e List.mem_cons_self, hrest]

section Sought

variable (hs : Sought cfg h r run chain b top) (hw : Fewer h b top w)

include hs hw

theorem Sought.walk :
    ∃ last, Segment (entryNode cfg w.blobs) h.headId (reachable w chain) last ∧
      (last = 0 ∨ last = h.nextFree ∨ w.blobs last = none) ∧
      (∀ e ∈ reachable w chain, e.1 ≠ 0 ∧ e.1 ≠ h.nextFree) ∧
      (reachable w chain).length ≤ w.top := by
  obtain ⟨last, hseg, hlast⟩ := hs.chain_seg
  obtain ⟨z, hz, hend⟩ := Segment.fewer hseg hw
  have hpre : reachable w chain <+: chain := List.takeWhile_prefix _
  refine ⟨z, hz, ?_, fun e he => hs.chain_ne e (hpre.subset he), ?_⟩
  . rcases hend with rfl | hnone
    . exact hlast.imp id .inl
    . exact .inr (.inr hnone)
  . rw [hw.top]
    exact hpre.length_le.trans hs.chain_len

theorem Sought.handleChain : handleChain cfg h w = (reachable w chain).map Prod.fst := by
  obtain ⟨last, hseg, hlast, hne, hlen⟩ := hs.walk hw
  exact chainFrom_eq hseg hlast hne (by omega)

-- The root is gone: only the chain is left to do.
theorem Sought.rest_felled (hr : w.reads = []) (hgone : w.blobs h.root = none) :
    Felled w ((reachable w chain).map Prod.fst) (logringDestroy cfg w) := by
  obtain ⟨last, hseg, hlast, hne, hlen⟩ := hs.walk hw
  have hhandle : handle w = (.ok h, w) := by
    unfold handle getRam
    rw [Proc.bind_run, Proc.read_run, Proc.step, hw.ram]
    rfl
  unfold logringDestroy
  rw [Proc.bind_ok hhandle, Proc.bind_run, Proc.attempt_run, rootLoad_gone hr hgone]
  show Felled w _ ((Proc.attempt (blobDbDelete h.root) >>= _) w)
  rw [Proc.bind_run, Proc.attempt_run, blobDbDelete_gone hgone]
  exact destroyChain_felled hr hseg hlast hne (by show _ < w.top + 1 + 1; omega)

-- The run and the chain, as long as nothing of the run is gone.
theorem Sought.whole_felled (hr : w.reads = []) (hrun : ∀ e ∈ run, w.blobs e.1 ≠ none) :
    Felled w ((run.map Prod.fst).reverse ++ (reachable w chain).map Prod.fst)
      (destroyRest cfg h r.evictFrom r.evictTo w) := by
  have hsweep : Felled w (run.map Prod.fst).reverse
      (Proc.when (r.evictFrom ≠ 0) (runDelete cfg r.evictFrom r.evictTo) w) := by
    unfold Proc.when
    by_cases hfrom : r.evictFrom = 0
    . rw [if_neg (by simpa using hfrom), hs.run_none hfrom]
      exact Felled.nothing w
    . rw [if_pos (by simpa using hfrom)]
      obtain ⟨stop, hseg, hstop⟩ := hs.run_seg hfrom
      obtain ⟨z, hz, hend⟩ := Segment.fewer hseg hw
      have hall : run.takeWhile (fun e => (w.blobs e.1).isSome) = run :=
        List.takeWhile_eq_self_iff.mpr fun e he => Option.isSome_iff_ne_none.mpr (hrun e he)
      rw [hall] at hz
      refine runDelete_felled hr hz ?_ (fun e he => (hs.run_ne e he).2) hs.run_len
      rcases hend with rfl | hnone
      . rcases hstop with he | hnone
        . exact .inl he
        . exact .inr ((hw.blobs z).elim (fun hb => hb.trans hnone) id)
      . exact .inr hnone
  refine hsweep.andThen ?_
  generalize Proc.when (r.evictFrom ≠ 0) (runDelete cfg r.evictFrom r.evictTo) w = x at hsweep
  obtain ⟨o, s⟩ := x
  have hblobs : s.blobs = w.blobs.without _ := hsweep.blobs
  have hrest : ∀ id, id ∉ run.map Prod.fst → s.blobs id = w.blobs id := by
    intro id hid
    rw [hblobs]
    exact if_neg fun hmem => hid (List.mem_reverse.mp (felled_subset _ _ hmem))
  have hapart : ∀ e ∈ chain, e.1 ∉ run.map Prod.fst := by
    intro e he hmem
    obtain ⟨c, hc, heq⟩ := List.mem_map.mp hmem
    have := hs.apart c hc e he
    omega
  have hfewer : Fewer h b top s := by
    refine ⟨fun id => ?_, hsweep.top.trans hw.top, hsweep.ram.trans hw.ram⟩
    rw [hblobs, Blobs.without]
    split
    . exact .inr rfl
    . exact hw.blobs id
  have hsame : reachable s chain = reachable w chain :=
    reachable_congr fun e he => hrest e.1 (hapart e he)
  obtain ⟨last, hseg, hlast, hne, hlen⟩ := hs.walk hfewer
  rw [← hsame]
  exact destroyChain_felled (hsweep.reads.trans hr) hseg hlast hne
    (by show _ < s.top + 1 + 1; omega)

end Sought

/-! One attempt -/

-- The ids that a destroy deletes, if its deletes meet the turns.
def razed (cfg : LogCfg) (h : Logring) (w : LogWorld) (ts : List Turn) : List Nat :=
  if w.blobs h.root = none then felled (handleChain cfg h w) ts
  else
    match ts.headD .done with
    | .done =>
      h.root :: felled ((rootRun cfg h.root w).reverse ++ handleChain cfg h w) ts.tail
    | t => if t.landed then [h.root] else []

-- No failing delete says that there is nothing to delete.
def TellingTurns (ts : List Turn) : Prop := ∀ t ∈ ts, ∀ e landed, t = .error e landed → e ≠ Errno.ENOENT

def World.enterTurns (w : LogWorld) (ts : List Turn) : LogWorld :=
  { w with
    turns := ts
    reads := [] }

-- Nothing of the log has gone.
structure Untouched (h : Logring) (run chain : List LogEntry) (w : LogWorld) : Prop where
  root : w.blobs h.root ≠ none
  run : ∀ e ∈ run, w.blobs e.1 ≠ none
  chain : ∀ e ∈ chain, w.blobs e.1 ≠ none

theorem Fewer.without {s : LogWorld} (hw : Fewer h b top w) {ids : List Nat}
    (hb : s.blobs = w.blobs.without ids) (htop : s.top = w.top) (hram : s.ram = w.ram) :
    Fewer h b top s := by
  refine ⟨fun id => ?_, htop.trans hw.top, hram.trans hw.ram⟩
  rw [hb, Blobs.without]
  split
  . exact .inr rfl
  . exact hw.blobs id

theorem Untouched.reachable (hu : Untouched h run chain w) : reachable w chain = chain :=
  List.takeWhile_eq_self_iff.mpr fun e he => Option.isSome_iff_ne_none.mpr (hu.chain e he)

theorem Sought.rootRun (hs : Sought cfg h r run chain b top) (hw : Fewer h b top w)
    (hu : Untouched h run chain w) : rootRun cfg h.root w = run.map Prod.fst := by
  have hroot : w.blobs h.root = some (rootImage r) :=
    ((hw.blobs h.root).resolve_right hu.root).trans hs.root
  have hat : rootAt w.blobs h.root = some r := by
    simp only [rootAt, hroot, decodeRoot_rootImage hs.fits]
    rfl
  rw [Containers.rootRun, hat]
  by_cases hfrom : r.evictFrom = 0
  . simp only [hfrom, if_true]
    rw [hs.run_none hfrom]
    rfl
  . simp only [hfrom, if_false]
    obtain ⟨stop, hseg, hstop⟩ := hs.run_seg hfrom
    obtain ⟨z, hz, hend⟩ := Segment.fewer hseg hw
    have hall : run.takeWhile (fun e => (w.blobs e.1).isSome) = run :=
      List.takeWhile_eq_self_iff.mpr fun e he => Option.isSome_iff_ne_none.mpr (hu.run e he)
    rw [hall] at hz
    refine chainFrom_eq hz ?_ hs.run_ne hs.run_len
    rcases hend with rfl | hnone
    . rcases hstop with he | hnone
      . exact .inr (.inl he)
      . exact .inr (.inr ((hw.blobs z).elim (fun hb => hb.trans hnone) id))
    . exact .inr (.inr hnone)

-- What one destroy does: it deletes what can be deleted of what it gets to.
theorem Sought.attempt (hs : Sought cfg h r run chain b top) (hw : Fewer h b top w)
    (hstate : w.blobs h.root = none ∨ Untouched h run chain w) {ts : List Turn}
    (ht : TellingTurns ts) :
    (logringDestroy cfg (w.enterTurns ts)).2.blobs = w.blobs.without (razed cfg h w ts) ∧
      Fewer h b top (logringDestroy cfg (w.enterTurns ts)).2 ∧
      (ts = [] → (logringDestroy cfg (w.enterTurns ts)).1 = .ok ()) := by
  have hw' : Fewer h b top (w.enterTurns ts) := ⟨hw.blobs, hw.top, hw.ram⟩
  have hreply : ∀ {ids : List Nat} {s : LogWorld} {x : Out Errno Unit × LogWorld}, s.turns = [] →
      Felled s ids x → x.1 = .ok () := by
    intro ids s x hnil hx
    rcases hx.reply with ⟨⟨_, hstop⟩, _⟩ | ⟨_, hok, _⟩
    . rw [hnil, List.take_nil] at hstop
      cases hstop
    . exact hok
  rw [razed, hs.handleChain hw]
  rcases hstate with hgone | hu
  . have hf := hs.rest_felled hw' rfl hgone
    rw [if_pos hgone]
    exact ⟨hf.blobs, hw.without hf.blobs hf.top hf.ram, fun hnil => hreply hnil hf⟩
  rw [if_neg hu.root, hs.rootRun hw hu, hu.reachable]
  have hroot : w.blobs h.root = some (rootImage r) :=
    ((hw.blobs h.root).resolve_right hu.root).trans hs.root
  have hhandle : handle (w.enterTurns ts) = (.ok h, w.enterTurns ts) := by
    unfold handle getRam
    rw [Proc.bind_run, Proc.read_run, Proc.step, hw'.ram]
    rfl
  have hload : rootLoad h.root (w.enterTurns ts) = (.ok r, w.enterTurns ts) :=
    rootLoad_run rfl hroot hs.fits
  have hdelete : blobDbDelete h.root (w.enterTurns ts) =
      ((ts.headD .done).outcome, (w.enterTurns ts).edit h.root none (ts.headD .done)) :=
    blobDbDelete_run hu.root
  have hedit : ∀ t : Turn, ((w.enterTurns ts).edit h.root none t).blobs =
      w.blobs.without (if t.landed then [h.root] else []) := by
    intro t
    simp only [World.edit]
    split
    . exact Blobs.update_eq_without _ _
    . rfl
  have hgo : ∀ (f : Except Errno ClogRoot → L Unit) (x : Out Errno Unit × LogWorld),
      f (.ok r) (w.enterTurns ts) = x →
      (Proc.attempt (rootLoad h.root) >>= f) (w.enterTurns ts) = x := by
    intro f x hx
    rw [Proc.bind_run, Proc.attempt_run, hload]
    exact hx
  unfold logringDestroy
  rw [Proc.bind_ok hhandle, hgo _ _ rfl, Proc.bind_run, Proc.attempt_run, hdelete]
  cases htop : ts.headD .done with
  | done =>
    have hfewer := hw.without (hedit .done) rfl rfl
    have hrun : ∀ e ∈ run, ((w.enterTurns ts).edit h.root none .done).blobs e.1 ≠ none := by
      intro e he
      have := hs.above e (.inl he)
      rw [hedit]
      simpa [Turn.landed, Blobs.without, this.ne'] using hu.run e he
    have hreach : reachable ((w.enterTurns ts).edit h.root none .done) chain = chain := by
      refine (reachable_congr fun e he => ?_).trans hu.reachable
      have := hs.above e (.inr he)
      rw [hedit]
      simp [Turn.landed, Blobs.without, this.ne']
    have hf := hs.whole_felled hfewer rfl hrun
    rw [hreach] at hf
    refine ⟨?_, hfewer.without hf.blobs hf.top hf.ram, fun hnil => hreply (by rw [hnil]; rfl) hf⟩
    show (destroyRest cfg h r.evictFrom r.evictTo _).2.blobs = _
    rw [hf.blobs, hedit, Blobs.without_append]
    rfl
  | error e landed =>
    have hne : e ≠ Errno.ENOENT := by
      cases ts with
      | nil => cases htop
      | cons t ts => exact ht t List.mem_cons_self e landed htop
    simp only [Turn.outcome, Proc.caught, Proc.step, ne_eq, hne, not_false_eq_true, if_true,
      Proc.fail_run]
    refine ⟨hedit _, hw.without (hedit _) rfl rfl, ?_⟩
    rintro rfl
    cases htop
  | cut landed =>
    refine ⟨hedit _, hw.without (hedit _) rfl rfl, ?_⟩
    rintro rfl
    cases htop

/-! Attempt after attempt -/

-- What the destroy deletes of the chain is an end of it, and the run is not lost with the root.
structure Careful (cfg : LogCfg) (h : Logring) (w : LogWorld) (ts : List Turn) : Prop where
  again : w.blobs h.root = none → felled (handleChain cfg h w) ts <:+ handleChain cfg h w
  first : w.blobs h.root ≠ none → ts.headD .done = .done → ∃ l ∈ (handleChain cfg h w).tails,
    felled ((rootRun cfg h.root w).reverse ++ handleChain cfg h w) ts.tail =
      (rootRun cfg h.root w).reverse ++ l
  stopped : w.blobs h.root ≠ none → ts.headD .done ≠ .done → (ts.headD .done).landed = true →
    rootRun cfg h.root w = []

-- The caller keeps its handle over a loss of power.
def destroyRuns (cfg : LogCfg) : LogWorld → List (List Turn) → LogWorld
  | w, [] => w
  | w, ts :: tss => destroyRuns cfg (logringDestroy cfg (w.enterTurns ts)).2 tss

def CarefulRun (cfg : LogCfg) (h : Logring) : LogWorld → List (List Turn) → Prop
  | _, [] => True
  | w, ts :: tss => Careful cfg h w ts ∧ CarefulRun cfg h (logringDestroy cfg (w.enterTurns ts)).2 tss

-- The root and the run are gone, and an end of the chain is.
structure Shortened (h : Logring) (run chain : List LogEntry) (w : LogWorld) : Prop where
  root : w.blobs h.root = none
  run : ∀ e ∈ run, w.blobs e.1 = none
  chain : ∃ k, (∀ e ∈ chain.take k, w.blobs e.1 ≠ none) ∧ ∀ e ∈ chain.drop k, w.blobs e.1 = none

theorem Shortened.reachable {k : Nat} (hlive : ∀ e ∈ chain.take k, w.blobs e.1 ≠ none)
    (hgone : ∀ e ∈ chain.drop k, w.blobs e.1 = none) : reachable w chain = chain.take k := by
  have hall : (chain.take k).takeWhile (fun e => (w.blobs e.1).isSome) = chain.take k :=
    List.takeWhile_eq_self_iff.mpr fun e he => Option.isSome_iff_ne_none.mpr (hlive e he)
  rw [Containers.reachable]
  nth_rewrite 1 [← List.take_append_drop k chain]
  rw [List.takeWhile_append_of_pos fun e he => Option.isSome_iff_ne_none.mpr (hlive e he)]
  cases hrest : chain.drop k with
  | nil => simp
  | cons e rest =>
    rw [List.takeWhile_cons_of_neg, List.append_nil]
    simp [hgone e (by simp [hrest])]

theorem Sought.chain_nodup (hs : Sought cfg h r run chain b top) : (chain.map Prod.fst).Nodup := by
  obtain ⟨last, hseg, _⟩ := hs.chain_seg
  exact (List.pairwise_map.mpr hseg.ascending).imp fun h => h.ne

-- An end of what was left of the chain goes.
theorem Sought.shorten (hs : Sought cfg h r run chain b top) {s : LogWorld} {k : Nat}
    {l other : List Nat} (hlive : ∀ e ∈ chain.take k, w.blobs e.1 ≠ none)
    (hgone : ∀ e ∈ chain.drop k, w.blobs e.1 = none)
    (hl : l <:+ (chain.take k).map Prod.fst) (hother : ∀ e ∈ chain, e.1 ∉ other)
    (hb : s.blobs = w.blobs.without (other ++ l)) :
    ∃ k, (∀ e ∈ chain.take k, s.blobs e.1 ≠ none) ∧ ∀ e ∈ chain.drop k, s.blobs e.1 = none := by
  obtain ⟨front, hfront⟩ := hl
  obtain ⟨pre, suf, hsplit, hpre, hsuf⟩ := List.map_eq_append_iff.mp hfront.symm
  have hchain : chain = pre ++ (suf ++ chain.drop k) := by
    rw [← List.append_assoc, ← hsplit, List.take_append_drop]
  have hnd := hs.chain_nodup
  refine ⟨pre.length, fun e he => ?_, fun e he => ?_⟩
  . rw [hchain, List.take_left] at he
    have hk : e ∈ chain.take k := by
      rw [hsplit]
      exact List.mem_append_left _ he
    have hnot : e.1 ∉ other ++ l := by
      rw [List.mem_append, not_or]
      refine ⟨hother e (List.mem_of_mem_take hk), fun hmem => ?_⟩
      rw [← hsuf] at hmem
      rw [hchain, List.map_append, List.nodup_append] at hnd
      refine hnd.2.2 e.1 (List.mem_map_of_mem he) e.1 ?_ rfl
      rw [List.map_append]
      exact List.mem_append_left _ hmem
    rw [hb, Blobs.without, if_neg hnot]
    exact hlive e hk
  . rw [hchain, List.drop_left] at he
    rw [hb, Blobs.without]
    rcases List.mem_append.mp he with he | he
    . refine if_pos (List.mem_append_right _ ?_)
      rw [← hsuf]
      exact List.mem_map_of_mem he
    . split
      . rfl
      . exact hgone e he

theorem Sought.attempt_keeps (hs : Sought cfg h r run chain b top) (hw : Fewer h b top w)
    (hstate : Untouched h run chain w ∨ Shortened h run chain w) {ts : List Turn}
    (ht : TellingTurns ts) (hcare : Careful cfg h w ts) :
    Fewer h b top (logringDestroy cfg (w.enterTurns ts)).2 ∧
      (Untouched h run chain (logringDestroy cfg (w.enterTurns ts)).2 ∨
        Shortened h run chain (logringDestroy cfg (w.enterTurns ts)).2) := by
  have hor : w.blobs h.root = none ∨ Untouched h run chain w :=
    hstate.elim .inr fun hsh => .inl hsh.root
  obtain ⟨hb, hfewer, _⟩ := hs.attempt hw hor ht
  refine ⟨hfewer, ?_⟩
  generalize (logringDestroy cfg (w.enterTurns ts)).2 = s at hb hfewer
  have hsgone : ∀ {id : Nat}, id ∈ razed cfg h w ts → s.blobs id = none := by
    intro id hid
    rw [hb]
    exact if_pos hid
  have hskeeps : ∀ {id : Nat}, w.blobs id = none → s.blobs id = none := by
    intro id hnone
    rw [hb, Blobs.without, hnone, ite_self]
  have hnoroot : ∀ e ∈ chain, e.1 ∉ [h.root] := by
    intro e he hmem
    have := hs.above e (.inr he)
    rw [List.mem_singleton] at hmem
    omega
  rcases hstate with hu | hsh
  . have hlive : ∀ e ∈ chain.take chain.length, w.blobs e.1 ≠ none :=
      fun e he => hu.chain e (List.mem_of_mem_take he)
    have hnone : ∀ e ∈ chain.drop chain.length, w.blobs e.1 = none := by simp
    have hfirst := hcare.first hu.root
    have hstopped := hcare.stopped hu.root
    rw [hs.rootRun hw hu, hs.handleChain hw, hu.reachable] at hfirst
    rw [hs.rootRun hw hu] at hstopped
    rw [razed, if_neg hu.root, hs.rootRun hw hu, hs.handleChain hw, hu.reachable] at hb hsgone
    -- only the root is tried
    have hpart : ∀ landed : Bool, s.blobs = w.blobs.without (if landed then [h.root] else []) →
        (landed = true → run.map Prod.fst = []) →
        Untouched h run chain s ∨ Shortened h run chain s := by
      intro landed hb hrun
      cases landed with
      | true =>
        refine .inr ⟨?_, fun e he => ?_, ?_⟩
        . rw [hb]
          exact if_pos List.mem_cons_self
        . rw [List.map_eq_nil_iff.mp (hrun rfl)] at he
          cases he
        . exact hs.shorten hlive hnone (l := []) List.nil_suffix hnoroot hb
      | false =>
        have hsame : s.blobs = w.blobs := hb
        exact .inl ⟨hsame ▸ hu.root, hsame ▸ hu.run, hsame ▸ hu.chain⟩
    cases htop : ts.headD .done with
    | done =>
      rw [htop] at hb hsgone
      obtain ⟨l, hl, hfelled⟩ := hfirst htop
      simp only [hfelled] at hb hsgone
      refine .inr ⟨hsgone List.mem_cons_self, fun e he => hsgone ?_, ?_⟩
      . refine List.mem_cons_of_mem _ (List.mem_append_left _ ?_)
        exact List.mem_reverse.mpr (List.mem_map_of_mem he)
      . refine @Sought.shorten _ _ _ _ _ _ _ _ hs _ _ l (h.root :: (run.map Prod.fst).reverse) hlive hnone ?_ ?_ ?_
        . rw [List.take_length]
          exact (List.mem_tails _ _).mp hl
        . intro e he hmem
          rcases List.mem_cons.mp hmem with heq | hmem
          . exact hnoroot e he (List.mem_singleton.mpr heq)
          . obtain ⟨c, hc, heq⟩ := List.mem_map.mp (List.mem_reverse.mp hmem)
            have := hs.apart c hc e he
            omega
        . rw [hb, List.cons_append]
    | error e landed =>
      rw [htop] at hb hstopped
      exact hpart landed hb (hstopped nofun)
    | cut landed =>
      rw [htop] at hb hstopped
      exact hpart landed hb (hstopped nofun)
  . obtain ⟨k, hlive, hnone⟩ := hsh.chain
    have hagain := hcare.again hsh.root
    rw [hs.handleChain hw, Shortened.reachable hlive hnone] at hagain
    rw [razed, if_pos hsh.root, hs.handleChain hw, Shortened.reachable hlive hnone] at hb
    refine .inr ⟨hskeeps hsh.root, fun e he => hskeeps (hsh.run e he), ?_⟩
    exact @Sought.shorten _ _ _ _ _ _ _ _ hs _ _ _ [] hlive hnone hagain (fun _ _ => List.not_mem_nil) hb

theorem Sought.runs_keep (hs : Sought cfg h r run chain b top) (hw : Fewer h b top w)
    (hstate : Untouched h run chain w ∨ Shortened h run chain w) (tss : List (List Turn))
    (ht : ∀ ts ∈ tss, TellingTurns ts) (hcare : CarefulRun cfg h w tss) :
    Fewer h b top (destroyRuns cfg w tss) ∧
      (Untouched h run chain (destroyRuns cfg w tss) ∨
        Shortened h run chain (destroyRuns cfg w tss)) := by
  induction tss generalizing w with
  | nil => exact ⟨hw, hstate⟩
  | cons ts tss ih =>
    obtain ⟨hw', hstate'⟩ := hs.attempt_keeps hw hstate (ht ts List.mem_cons_self) hcare.1
    exact ih hw' hstate' (fun t hmem => ht t (List.mem_cons_of_mem _ hmem)) hcare.2

-- A destroy that meets no failure deletes all that is left.
theorem Sought.last_attempt (hs : Sought cfg h r run chain b top) (hw : Fewer h b top w)
    (hstate : Untouched h run chain w ∨ Shortened h run chain w) :
    (logringDestroy cfg (w.enterTurns [])).1 = .ok () ∧
      (logringDestroy cfg (w.enterTurns [])).2.blobs h.root = none ∧
      ∀ e, e ∈ run ∨ e ∈ chain → (logringDestroy cfg (w.enterTurns [])).2.blobs e.1 = none := by
  have hor : w.blobs h.root = none ∨ Untouched h run chain w :=
    hstate.elim .inr fun hsh => .inl hsh.root
  obtain ⟨hb, _, hok⟩ := @Sought.attempt _ _ _ _ _ _ _ _ hs hw hor [] nofun
  refine ⟨hok rfl, ?_⟩
  rw [hb]
  have hgone : ∀ {id : Nat}, id ∈ razed cfg h w [] →
      w.blobs.without (razed cfg h w []) id = none := fun hid => if_pos hid
  have hkeeps : ∀ {id : Nat}, w.blobs id = none →
      w.blobs.without (razed cfg h w []) id = none := by
    intro id hnone
    rw [Blobs.without, hnone, ite_self]
  rcases hstate with hu | hsh
  . have hraze : razed cfg h w [] = h.root :: ((run.map Prod.fst).reverse ++ chain.map Prod.fst) := by
      rw [razed, if_neg hu.root, hs.rootRun hw hu, hs.handleChain hw, hu.reachable]
      simp only [List.headD_nil, List.tail_nil, felled_nil_turns]
    refine ⟨hgone (by simp [hraze]), fun e he => hgone ?_⟩
    rw [hraze]
    refine List.mem_cons_of_mem _ (List.mem_append.mpr ?_)
    exact he.imp (fun h => List.mem_reverse.mpr (List.mem_map_of_mem h)) List.mem_map_of_mem
  . obtain ⟨k, hlive, hnone⟩ := hsh.chain
    have hraze : razed cfg h w [] = (chain.take k).map Prod.fst := by
      rw [razed, if_pos hsh.root, hs.handleChain hw, Shortened.reachable hlive hnone,
        felled_nil_turns]
    refine ⟨hkeeps hsh.root, fun e he => ?_⟩
    rcases he with he | he
    . exact hkeeps (hsh.run e he)
    . rw [← List.take_append_drop k chain] at he
      rcases List.mem_append.mp he with he | he
      . exact hgone (by rw [hraze]; exact List.mem_map_of_mem he)
      . exact hkeeps (hnone e he)

-- A log in use is one to be destroyed.
theorem Running.sought {g : LogId} {d v : LogView} (hrun : Running cfg g d v [] h w) :
    ∃ r run, Sought cfg h r run v.entries w.blobs w.top ∧ Untouched h run v.entries w := by
  obtain ⟨hl, _, hserves⟩ := hrun
  obtain ⟨run, r, hf⟩ := hl.durable
  have hroot := hserves.root
  have hhead := hserves.mirrors.head
  have hnext := hserves.mirrors.next
  have hfirst : d.first ≤ v.first ∨ v.entries = [] := by
    rcases hl.ahead with ⟨pre, hpre, hfr⟩ | hlt
    . by_cases hnil : v.entries = []
      . exact .inr hnil
      . left
        obtain ⟨e, es, hes⟩ := List.exists_cons_of_ne_nil hnil
        have hmem : e ∈ d.entries := by simp [hpre, hes]
        have := hf.chain.segment.le_mem hmem
        simpa [LogView.first, hes] using this
    . have := hf.chain.le
      left
      omega
  refine ⟨r, run, ?_, ?_⟩
  . constructor
    . rw [hroot]
      exact hf.root_bound
    . exact hf.fits
    . by_cases hnil : v.entries = []
      . refine ⟨0, ?_, .inl rfl⟩
        rw [hnil, hhead, LogView.headId_nil hnil]
        rfl
      . refine ⟨v.frontier, ?_, .inr hnext.symm⟩
        rw [hhead, LogView.headId_eq hnil]
        exact hl.chain.segment
    . intro e he
      have h1 := hl.chain.segment.le_mem he
      have h2 := hl.chain.segment.mem_lt he
      have h3 := hl.above
      omega
    . have h1 := hl.chain.segment.length_le
      have h2 := hl.below
      omega
    . exact hf.detached.none_left
    . intro hfrom
      obtain ⟨_, _, stop, hseg, hstop⟩ := hf.detached.left hfrom
      exact ⟨stop, hseg, hstop.imp id fun h => h.1⟩
    . intro e he
      have := hf.detached.mem he
      omega
    . exact hf.detached.short
    . rw [hroot]
      rintro e (he | he)
      . exact (hf.detached.mem he).2.1
      . have h1 := hl.chain.segment.le_mem he
        have h2 := hl.above
        omega
    . intro e he c hc
      have h1 := (hf.detached.mem he).2.2.2
      have h2 := hl.chain.segment.le_mem hc
      rcases hfirst with h3 | hnil
      . omega
      . rw [hnil] at hc
        cases hc
  . constructor
    . rw [hroot, hf.root_bound]
      rintro ⟨⟩
    . intro e he
      obtain ⟨_, _, stop, hseg, _⟩ := hf.detached.left (hf.detached.mem he).1
      obtain ⟨n, hn⟩ := hseg.node_mem he
      exact entryNode_bound hn
    . exact fun e he => hl.chain.bound he

variable {cap rand : UInt32} {w0 : LogWorld} {root : Nat}

-- A destroy that is run again finishes what the ones before it have left, if each of them has deleted
-- an end of the chain, if the run did not outlive the root, and if the handle knows the whole chain.
theorem log_destroy_finishes (hc : Created cfg cap rand w0 root) (cs : List LogCall)
    (hf : faithful.holds (lifeOf cfg cap rand w0 root cs).2)
    (hopen : (lifeOf cfg cap rand w0 root cs).2.ram = some h) (tss : List (List Turn))
    (ht : ∀ ts ∈ tss, TellingTurns ts)
    (hknown : ∀ id ∈ rootChain cfg root (lifeOf cfg cap rand w0 root cs).2,
      id ∈ handleChain cfg h (lifeOf cfg cap rand w0 root cs).2)
    (hcare : CarefulRun cfg h (lifeOf cfg cap rand w0 root cs).2 tss) :
    (logringDestroy cfg
        ((destroyRuns cfg (lifeOf cfg cap rand w0 root cs).2 tss).enterTurns [])).1 = .ok () ∧
      (logringDestroy cfg
        ((destroyRuns cfg (lifeOf cfg cap rand w0 root cs).2 tss).enterTurns [])).2.blobs root = none ∧
      ∀ id, id ∈ rootChain cfg root (lifeOf cfg cap rand w0 root cs).2 ∨
          id ∈ handleChain cfg h (lifeOf cfg cap rand w0 root cs).2 ∨
          id ∈ rootRun cfg root (lifeOf cfg cap rand w0 root cs).2 →
        (logringDestroy cfg
          ((destroyRuns cfg (lifeOf cfg cap rand w0 root cs).2 tss).enterTurns [])).2.blobs id =
            none := by
  have hgrows := runLog_grows cfg root (logringCreate cfg cap rand w0).2 cs
  obtain ⟨g, first, rfl, _, huse⟩ := hc.inUse (faithful.anti hgrows hf)
  obtain ⟨d, hd, _⟩ := runLog_stepped hc.valid cs huse hf
  rw [← lifeOf] at hd
  generalize (lifeOf cfg cap rand w0 g.root cs).2 = w at *
  obtain ⟨v, h', hrun⟩ : ∃ v h, Running cfg g d v [] h w := by
    rcases hd with hd | ⟨hnone, _⟩
    . exact hd
    . rw [hopen] at hnone
      cases hnone
  obtain rfl : h' = h := by
    have := hrun.2.1
    rw [hopen] at this
    exact (Option.some.inj this).symm
  obtain ⟨r, run, hs, hu⟩ := hrun.sought
  have hw : Fewer h' w.blobs w.top w := ⟨fun _ => .inl rfl, rfl, hopen⟩
  obtain ⟨hw', hstate⟩ := hs.runs_keep hw (.inl hu) tss ht hcare
  obtain ⟨hok, hroot, hgone⟩ := hs.last_attempt hw' hstate
  rw [hrun.2.2.root] at hroot
  refine ⟨hok, hroot, fun id hid => ?_⟩
  have hchain : id ∈ handleChain cfg h' w →
      (logringDestroy cfg ((destroyRuns cfg w tss).enterTurns [])).2.blobs id = none := by
    intro hmem
    rw [hs.handleChain hw, hu.reachable] at hmem
    obtain ⟨e, he, rfl⟩ := List.mem_map.mp hmem
    exact hgone e (.inr he)
  rcases hid with hid | hid | hid
  . exact hchain (hknown id hid)
  . exact hchain hid
  . rw [← hrun.2.2.root, hs.rootRun hw hu] at hid
    obtain ⟨e, he, rfl⟩ := List.mem_map.mp hid
    exact hgone e (.inl he)

instance (h : Logring) (w : LogWorld) (ts : List Turn) : Decidable (Careful cfg h w ts) :=
  decidable_of_iff
    ((w.blobs h.root = none → felled (handleChain cfg h w) ts <:+ handleChain cfg h w) ∧
      (w.blobs h.root ≠ none → ts.headD .done = .done → ∃ l ∈ (handleChain cfg h w).tails,
        felled ((rootRun cfg h.root w).reverse ++ handleChain cfg h w) ts.tail =
          (rootRun cfg h.root w).reverse ++ l) ∧
      (w.blobs h.root ≠ none → ts.headD .done ≠ .done → (ts.headD .done).landed = true →
        rootRun cfg h.root w = []))
    ⟨fun h => ⟨h.1, h.2.1, h.2.2⟩, fun h => ⟨h.1, h.2, h.3⟩⟩

def threeEntries : List LogCall :=
  [⟨.open, [], [], []⟩, ⟨.append [1], [], [], []⟩, ⟨.append [2], [], [], []⟩,
    ⟨.append [3], [], [], []⟩]

-- The root cannot be deleted; then the oldest entry cannot, and power is lost with the newest.
def luckyTurns : List (List Turn) :=
  [[.error Errno.EIO false], [.done, .error Errno.EIO false, .done, .cut true]]

theorem log_destroy_finishes_lucky :
    (logringDestroy (smallLog 2) ((destroyRuns (smallLog 2)
        (lifeOf (smallLog 2) 100 7 (blankStore none) 2 threeEntries).2 luckyTurns).enterTurns [])).1 =
        .ok () ∧
      (logringDestroy (smallLog 2) ((destroyRuns (smallLog 2)
        (lifeOf (smallLog 2) 100 7 (blankStore none) 2 threeEntries).2 luckyTurns).enterTurns
          [])).2.blobs 2 = none ∧
      ∀ id, id ∈ rootChain (smallLog 2) 2
            (lifeOf (smallLog 2) 100 7 (blankStore none) 2 threeEntries).2 ∨
          id ∈ handleChain (smallLog 2) ⟨2, 5, 6, 3, 7, 100, 3, 3, 0⟩
            (lifeOf (smallLog 2) 100 7 (blankStore none) 2 threeEntries).2 ∨
          id ∈ rootRun (smallLog 2) 2
            (lifeOf (smallLog 2) 100 7 (blankStore none) 2 threeEntries).2 →
        (logringDestroy (smallLog 2) ((destroyRuns (smallLog 2)
          (lifeOf (smallLog 2) 100 7 (blankStore none) 2 threeEntries).2 luckyTurns).enterTurns
            [])).2.blobs id = none :=
  log_destroy_finishes (smallLog_created (by decide) (by decide +kernel)) threeEntries
    (by decide +kernel) (by decide +kernel) luckyTurns (by simp [luckyTurns, TellingTurns])
    (by decide +kernel) ⟨by decide +kernel, by decide +kernel, trivial⟩

-- Power is lost when the oldest entry is gone. The next destroy returns, and the two others stay.
theorem cut_destroy_leaves_entries :
    (logringDestroy (smallLog 2) ((destroyRuns (smallLog 2)
        (lifeOf (smallLog 2) 100 7 (blankStore none) 2 threeEntries).2
        [[.done, .done, .cut false]]).enterTurns [])).1 = .ok () ∧
      4 ∈ handleChain (smallLog 2) ⟨2, 5, 6, 3, 7, 100, 3, 3, 0⟩
        (lifeOf (smallLog 2) 100 7 (blankStore none) 2 threeEntries).2 ∧
      4 ∈ rootChain (smallLog 2) 2 (lifeOf (smallLog 2) 100 7 (blankStore none) 2 threeEntries).2 ∧
      (logringDestroy (smallLog 2) ((destroyRuns (smallLog 2)
        (lifeOf (smallLog 2) 100 7 (blankStore none) 2 threeEntries).2
        [[.done, .done, .cut false]]).enterTurns [])).2.blobs 4 ≠ none := by
  decide +kernel

end KeyValueDb.Containers
