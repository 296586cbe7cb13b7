import KeyValueDb.Containers.LogringOps

/-!
What a reader of an open log is told.
-/

namespace KeyValueDb.Containers

variable {cfg : LogCfg} {g : LogId} {v d : LogView} {h : Logring}

-- Where the next delivery through a cursor would come from.
def LogringCursor.start (c : LogringCursor) (h : Logring) : Nat :=
  if c.pos ≠ 0 then c.pos else h.headId

def LogringCursor.Foreign (c : LogringCursor) (h : Logring) : Prop :=
  c.epoch ≠ 0 ∧ c.epoch ≠ h.epoch

-- The answers of logring_next, with the cursor afterwards.
inductive Answer (cfg : LogCfg) (b : Blobs) (h : Logring) (c : LogringCursor) (outSz : Option Nat) :
    Except Errno (Nat × List UInt8) × LogringCursor → Prop where
  | foreign (hc : c.Foreign h) : Answer cfg b h c outSz (.error Errno.ESTALE, ⟨0, h.epoch⟩)
  | empty (hc : ¬ c.Foreign h) (h0 : c.start h = 0) : Answer cfg b h c outSz (.error Errno.ENOENT, c)
  | delivered (hc : ¬ c.Foreign h) (h0 : c.start h ≠ 0) {rec : List UInt8} {nxt : Nat}
      (hnode : entryNode cfg b (c.start h) = some (rec, nxt))
      (hroom : outSz.any (· < rec.length) = false) :
      Answer cfg b h c outSz (.ok (c.start h, rec), ⟨nxt, h.epoch⟩)
  | gone (hc : ¬ c.Foreign h) (h0 : c.start h ≠ 0) (hb : b (c.start h) = none)
      (hlt : c.start h < h.nextFree) : Answer cfg b h c outSz (.error Errno.ESTALE, ⟨0, h.epoch⟩)
  | caughtUp (hc : ¬ c.Foreign h) (h0 : c.start h ≠ 0) (hb : b (c.start h) = none)
      (hle : h.nextFree ≤ c.start h) : Answer cfg b h c outSz (.error Errno.ENOENT, c)
  | short (hc : ¬ c.Foreign h) (h0 : c.start h ≠ 0) {a : List UInt8 × Nat}
      (hnode : entryNode cfg b (c.start h) = some a) (hroom : outSz.any (· < a.1.length) = true) :
      Answer cfg b h c outSz (.error Errno.EMSGSIZE, c)
  | broken (hc : ¬ c.Foreign h) (h0 : c.start h ≠ 0) (e : Errno) (hb : b (c.start h) ≠ none)
      (hnode : entryNode cfg b (c.start h) = none) (hne : e ≠ Errno.ENOENT) :
      Answer cfg b h c outSz (.error e, c)

theorem logringNext_spec {t : LogWorld} (hram : t.ram = some h) (c : LogringCursor)
    (outSz : Option Nat) :
    Spec faithful t.Reread (logringNext cfg c outSz)
      ⟨fun a s => t.Reread s ∧ Answer cfg t.blobs h c outSz a, fun _ _ => False,
        fun _ => False⟩ := by
  refine (Spec.readHandle (h := h) ?_).bind (fun a => ?_) (fun _ _ h => h.elim) (fun _ h => h.elim)
  . intro s hs
    obtain ⟨l, rfl⟩ := hs
    exact hram
  refine Spec.assuming (φ := a = h) (fun s hs => hs.1) fun ha => ?_
  subst ha
  refine Spec.ite (fun hc => ?_) fun hc => ?_
  . exact Spec.ret fun s hs => ⟨hs.2, .foreign hc⟩
  . extract_lets start
    refine Spec.ite (fun h0 => ?_) fun h0 => ?_
    . exact Spec.ret fun s hs => ⟨hs.2, .empty hc h0⟩
    . refine ((entryRead_spec t start outSz).pre fun s hs => hs.2).attempt.bind (fun o => ?_)
        (fun _ _ h => h.elim) (fun _ h => h.elim)
      cases o with
      | ok e => exact Spec.ret fun s hs => ⟨hs.1, .delivered hc h0 hs.2.1 hs.2.2⟩
      | error e =>
        refine Spec.ite (fun he => ?_) fun he => ?_
        . refine Spec.ret fun s hs => ⟨hs.1, .gone hc h0 ?_ he.2⟩
          rcases hs.2 with ⟨_, hb⟩ | ⟨hne, _⟩
          . exact hb
          . exact absurd he.1 hne
        . refine Spec.ret fun s hs => ⟨hs.1, ?_⟩
          rcases hs.2 with ⟨rfl, hb⟩ | ⟨hne, hb, hnode | ⟨rfl, x, hx, hroom⟩⟩
          . have hle : a.nextFree ≤ start := by
              by_contra hlt
              exact he ⟨rfl, by omega⟩
            exact .caughtUp hc h0 hb hle
          . exact .broken hc h0 e hb hnode hne
          . exact .short hc h0 hx hroom

-- A walk from an entry of the chain delivers what is left of it.
theorem logringWalk_spec {t : LogWorld} (hram : t.ram = some h)
    (hnext : h.nextFree = v.frontier) (hfree : t.blobs v.frontier = none) :
    ∀ (fuel : Nat) (c : LogringCursor) (cs : List LogEntry), c.epoch = h.epoch →
      (c.start h = 0 ∧ cs = [] ∨ 0 < c.start h ∧
        Segment (entryNode cfg t.blobs) (c.start h) cs v.frontier) → cs.length < fuel →
      Spec faithful t.Reread (logringWalk cfg fuel c)
        ⟨fun a s => t.Reread s ∧ a = (cs, Errno.ENOENT), fun _ _ => False, fun _ => False⟩ := by
  intro fuel
  induction fuel with
  | zero =>
    intro _ _ _ _ hlen
    omega
  | succ fuel ih =>
    intro c cs hep hseg hlen
    have hforeign : ¬ c.Foreign h := fun hc => hc.2 hep
    have hnone : cs = [] → c.start h ≠ 0 → c.start h = v.frontier := by
      intro hcs h0
      rcases hseg with ⟨hz, _⟩ | ⟨_, hseg⟩
      . exact absurd hz h0
      . rw [hcs] at hseg
        exact hseg
    refine (logringNext_spec hram c (some cfg.maxRecord)).bind (fun r => ?_) (fun _ _ h => h)
      (fun _ h => h)
    cases cs with
    | nil =>
      -- the walk has caught up
      refine Spec.assuming (φ := r.1 = .error Errno.ENOENT) ?_ fun hr => ?_
      . intro s hs
        cases hs.2 with
        | foreign hc => exact absurd hc hforeign
        | empty => rfl
        | delivered _ h0 hnode =>
          rw [hnone rfl h0] at hnode
          exact absurd hfree (entryNode_bound hnode)
        | gone _ h0 _ hlt =>
          rw [hnone rfl h0, hnext] at hlt
          exact absurd hlt (lt_irrefl _)
        | caughtUp => rfl
        | short _ h0 hnode =>
          rw [hnone rfl h0] at hnode
          exact absurd hfree (entryNode_bound hnode)
        | broken _ h0 _ hb =>
          rw [hnone rfl h0] at hb
          exact absurd hfree hb
      . rw [hr]
        exact Spec.ret fun s hs => ⟨hs.1, rfl⟩
    | cons e cs =>
      rcases hseg with ⟨_, hcs⟩ | ⟨hpos', hseg⟩
      . cases hcs
      obtain ⟨hstart, nxt, hnode, hlt, hrest⟩ := hseg
      have hroom : (some cfg.maxRecord).any (· < e.2.length) = false := by
        have hlen : e.2.length ≤ cfg.maxRecord := entryNode_len hnode
        simp only [Option.any_some, decide_eq_false_iff_not]
        omega
      refine Spec.assuming (φ := r = (.ok e, ⟨nxt, h.epoch⟩)) ?_ fun hr => ?_
      . intro s hs
        cases hs.2 with
        | foreign hc => exact absurd hc hforeign
        | empty _ h0 => omega
        | delivered _ _ hn _ =>
          rw [hnode] at hn
          simp only [Option.some.injEq, Prod.mk.injEq] at hn
          rw [← hn.1, ← hn.2, hstart]
        | gone _ _ hb _ => exact absurd hb (entryNode_bound hnode)
        | caughtUp _ _ hb _ => exact absurd hb (entryNode_bound hnode)
        | short _ _ hn hbig =>
          rw [hnode] at hn
          cases hn
          rw [hroom] at hbig
          cases hbig
        | broken _ _ _ _ hn _ =>
          rw [hnode] at hn
          cases hn
      . subst hr
        have hstart' : (LogringCursor.mk nxt h.epoch).start h = nxt := by
          simp only [LogringCursor.start]
          rw [if_pos (by omega)]
        have hwalk := ih ⟨nxt, h.epoch⟩ cs rfl
          (.inr ⟨by rw [hstart']; omega, by rw [hstart']; exact hrest⟩) (by simpa using hlen)
        refine (hwalk.pre fun s hs => hs.1).bind (fun rest => ?_) (fun _ _ h => h) (fun _ h => h)
        exact Spec.ret fun s hs => ⟨hs.1, by rw [hs.2]⟩

theorem logringReadAll_spec {t : LogWorld} (ht : Running cfg g d v [] h t) :
    Spec faithful t.Reread (logringReadAll cfg)
      ⟨fun a s => t.Reread s ∧ a = (v.entries, Errno.ENOENT), fun _ _ => False,
        fun _ => False⟩ := by
  obtain ⟨hl, hram, hserves⟩ := ht
  refine (Spec.readHandle (h := h) ?_).bind (fun a => ?_) (fun _ _ h => h.elim) (fun _ h => h.elim)
  . intro s hs
    obtain ⟨l, rfl⟩ := hs
    exact hram
  refine Spec.assuming (φ := a = h) (fun s hs => hs.1) fun ha => ?_
  subst ha
  refine Spec.read_bind fun fuel => ?_
  refine Spec.assuming (φ := fuel = t.top + 1) ?_ fun hfuel => ?_
  . intro s hs
    obtain ⟨hf, _, l, rfl⟩ := hs
    exact hf.symm
  have habove := hl.above
  have hle := hl.chain.le
  have hbelow := hl.below
  have hlen := hl.chain.segment.length_le
  have hstart : (logringSeekOldest a).start a = v.headId := by
    simp [logringSeekOldest, LogringCursor.start, hserves.mirrors.head]
  refine (logringWalk_spec hram hserves.mirrors.next hl.chain.free (fuel + 1)
    (logringSeekOldest a) v.entries rfl ?_ (by omega)).pre fun s hs => hs.2.2
  rw [hstart]
  by_cases hnil : v.entries = []
  . exact .inl ⟨LogView.headId_nil hnil, hnil⟩
  . rw [LogView.headId_eq hnil]
    exact .inr ⟨by omega, hl.chain.segment⟩

end KeyValueDb.Containers
