import KeyValueDb.Containers.LogringHistory

/-!
Readers of a log. Cursors and monikers hold an id, while entries are evicted, the log is reset and the
handle is lost and made again underneath them.
-/

namespace KeyValueDb.Containers

/-! The readers and the log -/

-- A copy is a cursor made from the moniker of another one.
inductive ReaderOp where
  | call (c : LogCall)
  | seekOldest (i : Nat)
  | seekNewest (i : Nat)
  | next (i : Nat) (outSz : Option Nat)
  | copy (i j : Nat)
  deriving Repr, DecidableEq

inductive ReaderNote where
  | reply (r : LogReply)
  | moved
  -- there is no handle to read with
  | closed
  | delivered (e : LogEntry)
  | refused (e : Errno)
  deriving Repr, DecidableEq

structure Readers where
  log : LogWorld
  cursors : Nat → LogringCursor

def Readers.set (s : Readers) (i : Nat) (c : LogringCursor) : Readers :=
  { s with cursors := Function.update s.cursors i c }

def Readers.seek (s : Readers) (i : Nat) (f : Logring → LogringCursor) : ReaderNote × Readers :=
  match s.log.ram with
  | none => (.closed, s)
  | some h => (.moved, s.set i (f h))

variable (cfg : LogCfg)

def Readers.next (s : Readers) (i : Nat) (outSz : Option Nat) : ReaderNote × Readers :=
  match (logringNext cfg (s.cursors i) outSz (s.log.enterLog ⟨.powerOff, [], [], []⟩)).1 with
  | .ok (.ok e, c) => (.delivered e, s.set i c)
  | .ok (.error e, c) => (.refused e, s.set i c)
  | _ => (.closed, s)

def readerStep (root : Nat) (s : Readers) : ReaderOp → ReaderNote × Readers
  | .call c =>
    let r := logStep cfg root s.log c
    (.reply r.1, { s with log := r.2 })
  | .seekOldest i => s.seek i logringSeekOldest
  | .seekNewest i => s.seek i logringSeekNewest
  | .next i outSz => s.next cfg i outSz
  | .copy i j => (.moved, s.set j (logringCursorFromMoniker (logringCursorToMoniker (s.cursors i))))

def runReaders (root : Nat) (s : Readers) : List ReaderOp → List ReaderNote × Readers
  | [] => ([], s)
  | op :: ops =>
    let r := readerStep cfg root s op
    let rest := runReaders root r.2 ops
    (r.1 :: rest.1, rest.2)

-- Cursors that were never set are zero.
def Readers.start (w : LogWorld) : Readers := ⟨w, fun _ => ⟨0, 0⟩⟩

/-! What the readers were told -/

-- What was delivered through a cursor since it was last set, and the last of it unless the reader was
-- told since then that it has missed something.
structure Mark where
  seen : List LogEntry
  last : Option LogEntry

-- The mark of a cursor after an answer.
def Mark.after (m : Mark) : ReaderNote → Mark
  | .moved => ⟨[], none⟩
  | .delivered e => ⟨m.seen ++ [e], some e⟩
  | .refused Errno.ESTALE => ⟨m.seen, none⟩
  | _ => m

def track (ms : Nat → Mark) : ReaderOp → ReaderNote → Nat → Mark
  | .call _, _ => ms
  | .seekOldest i, n => Function.update ms i ((ms i).after n)
  | .seekNewest i, n => Function.update ms i ((ms i).after n)
  | .next i _, n => Function.update ms i ((ms i).after n)
  | .copy i j, _ => Function.update ms j (ms i)

def marksOf (ms : Nat → Mark) : List ReaderOp → List ReaderNote → Nat → Mark
  | op :: ops, n :: ns => marksOf (track ms op n) ops ns
  | _, _ => ms

def callsOf (ops : List ReaderOp) : List LogCall :=
  ops.filterMap fun op =>
    match op with
    | .call c => some c
    | _ => none

def repliesOf (notes : List ReaderNote) : List LogReply :=
  notes.filterMap fun n =>
    match n with
    | .reply r => some r
    | _ => none

-- What an answer of logring_next says, `l` being the ledger, `m` the mark of the cursor `c`, and `c'`
-- the cursor afterwards.
def Told (l : Ledger) (m : Mark) (c c' : LogringCursor) : ReaderNote → Prop
  -- nothing is delivered twice, and a delivery follows the last one directly
  | .delivered e => e ∈ l.kept ∧ (∀ x ∈ m.seen, x.1 < e.1) ∧
      ∀ e0, m.last = some e0 → ∃ pre post, l.bound = pre ++ e0 :: e :: post
  -- the last delivery was the newest record, or the cursor is at the oldest entry of an empty log
  | .refused Errno.ENOENT => c' = c ∧ (∀ e0, m.last = some e0 → l.bound.getLast? = some e0) ∧
      (m.last = none → c.pos = 0 ∧ l.kept = [])
  | .refused Errno.ESTALE => c'.pos = 0
  | .refused Errno.EMSGSIZE => c' = c
  | .closed => c' = c
  | _ => False

/-! Where a cursor stands -/

variable {cfg} {g : LogId} {l l' : Ledger} {c : LogringCursor} {m : Mark}

structure Stands (g : LogId) (l : Ledger) (c : LogringCursor) (m : Mark) : Prop where
  epoch : c.epoch = 0 ∨ c.epoch = g.epoch
  -- at the oldest entry, past all that was delivered
  oldest : c.pos = 0 → m.last = none ∧ ∀ x ∈ m.seen, x.1 < l.next ∧ ∀ y ∈ l.kept, x.1 < y.1
  placed : c.pos ≠ 0 → g.root < c.pos ∧ c.pos ≤ l.next ∧ ∀ x ∈ m.seen, x.1 < c.pos
  -- right after the last delivery
  after : c.pos ≠ 0 → ∀ e, m.last = some e → e ∈ l.bound ∧ e.1 < c.pos ∧
    (∀ y ∈ l.bound, e.1 < y.1 → c.pos ≤ y.1) ∧
    (e ∈ l.kept → c.pos = l.next ∨ ∃ rec, (c.pos, rec) ∈ l.kept)
  fresh : c.pos ≠ 0 → m.last = none → ∃ rec, (c.pos, rec) ∈ l.bound

theorem Stands.zero (g : LogId) (l : Ledger) : Stands g l ⟨0, 0⟩ ⟨[], none⟩ where
  epoch := .inl rfl
  oldest := fun _ => ⟨rfl, nofun⟩
  placed := fun h => absurd rfl h
  after := fun h => absurd rfl h
  fresh := fun h => absurd rfl h

-- What follows a kept entry is kept.
theorem mem_drop_of_lt {es : List LogEntry} (hes : es.Pairwise fun a b => a.1 < b.1) {n : Nat}
    {a b : LogEntry} (ha : a ∈ es.drop n) (hb : b ∈ es) (hlt : a.1 < b.1) : b ∈ es.drop n := by
  rw [← List.take_append_drop n es, List.pairwise_append] at hes
  rw [← List.take_append_drop n es, List.mem_append] at hb
  rcases hb with hb | hb
  . have := hes.2.2 b hb a ha
    omega
  . exact hb

theorem Ledger.Sane.kept_suffix (h : l.Sane) : l.kept <:+ l.bound := h.kept.trans h.since

theorem Ledger.Sane.kept_ascending (h : l.Sane) : l.kept.Pairwise fun a b => a.1 < b.1 :=
  h.ascending.sublist h.kept_suffix.sublist

-- A record after a kept one is kept, and one before a kept one was kept too if it is.
theorem Ledger.Sane.kept_of_lt (h : l.Sane) {a b : LogEntry} (ha : a ∈ l.kept) (hb : b ∈ l.bound)
    (hlt : a.1 < b.1) : b ∈ l.kept := by
  obtain ⟨pre, hpre⟩ := h.kept_suffix
  have hdrop : l.kept = l.bound.drop pre.length := by
    rw [← hpre, List.drop_left]
  rw [hdrop] at ha ⊢
  exact mem_drop_of_lt h.ascending ha hb hlt

theorem Stands.push (h : Stands g l c m) (hl : l.Sane) {rec : List UInt8} {next n : Nat}
    (hnext : l.next < next) : Stands g (l.push rec next n) c m where
  epoch := h.epoch
  oldest := by
    intro h0
    refine ⟨(h.oldest h0).1, fun x hx => ?_⟩
    obtain ⟨hlt, hkept⟩ := (h.oldest h0).2 x hx
    refine ⟨hlt.trans hnext, fun y hy => ?_⟩
    have hy := List.mem_of_mem_drop hy
    rw [List.mem_append, List.mem_singleton] at hy
    rcases hy with hy | rfl
    . exact hkept y hy
    . exact hlt
  placed := by
    intro h0
    obtain ⟨hroot, hle, hseen⟩ := h.placed h0
    exact ⟨hroot, hle.trans hnext.le, hseen⟩
  after := by
    intro h0 e he
    obtain ⟨hbound, hlt, hnone, hkept⟩ := h.after h0 e he
    have hle := (h.placed h0).2.1
    refine ⟨List.mem_append_left _ hbound, hlt, fun y hy hey => ?_, fun hmem => .inr ?_⟩
    . rw [Ledger.push, List.mem_append, List.mem_singleton] at hy
      rcases hy with hy | rfl
      . exact hnone y hy hey
      . exact hle
    . have hmem' := List.mem_of_mem_drop hmem
      rw [List.mem_append, List.mem_singleton] at hmem'
      have hne : e ≠ (l.next, rec) := by
        rintro rfl
        exact absurd hle (Nat.not_le.mpr hlt)
      have hasc : (l.kept ++ [(l.next, rec)]).Pairwise fun a b => a.1 < b.1 := by
        rw [List.pairwise_append]
        refine ⟨hl.kept_ascending, List.pairwise_singleton .., fun a ha b hb => ?_⟩
        rw [List.mem_singleton.mp hb]
        exact hl.below a (hl.kept_suffix.subset ha)
      rcases hkept (hmem'.resolve_right hne) with hpos | ⟨x, hx⟩
      . refine ⟨rec, mem_drop_of_lt hasc hmem ?_ hlt⟩
        rw [hpos]
        simp
      . exact ⟨x, mem_drop_of_lt hasc hmem (List.mem_append_left _ hx) hlt⟩
  fresh := by
    intro h0 hlast
    obtain ⟨x, hx⟩ := h.fresh h0 hlast
    exact ⟨x, List.mem_append_left _ hx⟩

theorem Stands.shrink (h : Stands g l c m) (hl : l.Sane) (n : Nat) :
    Stands g (l.shrink n) c m where
  epoch := h.epoch
  oldest := by
    intro h0
    refine ⟨(h.oldest h0).1, fun x hx => ?_⟩
    obtain ⟨hlt, hkept⟩ := (h.oldest h0).2 x hx
    exact ⟨hlt, fun y hy => hkept y (List.mem_of_mem_drop hy)⟩
  placed := h.placed
  after := by
    intro h0 e he
    obtain ⟨hbound, hlt, hnone, hkept⟩ := h.after h0 e he
    refine ⟨hbound, hlt, hnone, fun hmem => (hkept (List.mem_of_mem_drop hmem)).imp_right ?_⟩
    intro ⟨x, hx⟩
    exact ⟨x, mem_drop_of_lt hl.kept_ascending hmem hx hlt⟩
  fresh := h.fresh

-- The log is emptied, and a new chain starts.
theorem Stands.restart (h : Stands g l c m) (hbound : l'.bound = l.bound) (hkept : l'.kept = [])
    (hnext : l.next < l'.next) : Stands g l' c m where
  epoch := h.epoch
  oldest := by
    intro h0
    refine ⟨(h.oldest h0).1, fun x hx => ⟨((h.oldest h0).2 x hx).1.trans hnext, ?_⟩⟩
    rw [hkept]
    exact nofun
  placed := by
    intro h0
    obtain ⟨hroot, hle, hseen⟩ := h.placed h0
    exact ⟨hroot, hle.trans hnext.le, hseen⟩
  after := by
    intro h0 e he
    obtain ⟨hmem, hlt, hnone, _⟩ := h.after h0 e he
    rw [hbound, hkept]
    exact ⟨hmem, hlt, hnone, nofun⟩
  fresh := by
    rw [hbound]
    exact h.fresh

theorem Stands.step {op : LogOp} {r : LogReply} (h : Stands g l c m) (hl : l.Sane)
    (hs : Ledger.Step op r l l') : Stands g l' c m := by
  cases hs with
  | appended _ rec next n hn hnext => exact h.push hl hnext
  | refused _ rec e n hn => exact h.shrink hl n
  | cutAfter _ rec next n hn hnext => exact h.push hl hnext
  | cutBefore _ rec n hn => exact h.shrink hl n
  | reset _ next hnext => exact h.restart rfl rfl hnext
  | resetRefused _ e n hn => exact h.shrink hl n
  | resetPart _ n hn => exact h.shrink hl n
  | resetCut _ next hnext => exact h.restart rfl rfl hnext
  | opened => exact h
  | openCut => exact h
  | powerOff => exact h

/-! Neighbours in an ascending list -/

theorem adjacent_of_ascending {es : List LogEntry} (hes : es.Pairwise fun a b => a.1 < b.1)
    {a b : LogEntry} (ha : a ∈ es) (hb : b ∈ es) (hlt : a.1 < b.1)
    (hnone : ∀ y ∈ es, a.1 < y.1 → b.1 ≤ y.1) : ∃ pre post, es = pre ++ a :: b :: post := by
  obtain ⟨pre, rest, rfl⟩ := List.append_of_mem ha
  rw [List.pairwise_append, List.pairwise_cons] at hes
  obtain ⟨_, ⟨hrest, hasc⟩, hpre⟩ := hes
  have hbrest : b ∈ rest := by
    rw [List.mem_append, List.mem_cons] at hb
    rcases hb with hb | rfl | hb
    . have := hpre b hb a List.mem_cons_self
      omega
    . omega
    . exact hb
  cases rest with
  | nil => cases hbrest
  | cons f post =>
    have hf := hnone f (by simp) (hrest f List.mem_cons_self)
    rw [List.pairwise_cons] at hasc
    rw [List.mem_cons] at hbrest
    rcases hbrest with rfl | hbpost
    . exact ⟨pre, post, rfl⟩
    . have := hasc.1 b hbpost
      omega

theorem getLast?_of_ascending {es : List LogEntry} (hes : es.Pairwise fun a b => a.1 < b.1)
    {a : LogEntry} (ha : a ∈ es) (hnone : ∀ y ∈ es, ¬ a.1 < y.1) : es.getLast? = some a := by
  obtain ⟨pre, rest, rfl⟩ := List.append_of_mem ha
  cases rest with
  | nil => simp
  | cons f post =>
    rw [List.pairwise_append, List.pairwise_cons] at hes
    exact absurd (hes.2.1.1 f List.mem_cons_self) (hnone f (by simp))

theorem eq_of_ascending {es : List LogEntry} (hes : es.Pairwise fun a b => a.1 < b.1)
    {a b : LogEntry} (ha : a ∈ es) (hb : b ∈ es) (heq : a.1 = b.1) : a = b := by
  obtain ⟨pre, rest, rfl⟩ := List.append_of_mem ha
  rw [List.pairwise_append, List.pairwise_cons] at hes
  rw [List.mem_append, List.mem_cons] at hb
  rcases hb with hb | rfl | hb
  . have := hes.2.2 b hb a List.mem_cons_self
    omega
  . rfl
  . have := hes.2.1.1 b hb
    omega

/-! One answer -/

-- An open log, its ledger, and no blob of it but the entries.
structure InOrder (cfg : LogCfg) (g : LogId) (v : LogView) (h : Logring) (l : Ledger)
    (w : LogWorld) : Prop where
  running : Running cfg g v v [] h w
  tracks : l.Tracks v
  sane : l.Sane
  clean : ∀ id, g.root < id → w.blobs id ≠ none → ∃ rec, (id, rec) ∈ v.entries

variable {v : LogView} {h : Logring} {w : LogWorld} {outSz : Option Nat}

namespace InOrder

-- An entry of the log, and what comes after it.
theorem entry (ho : InOrder cfg g v h l w) {id nxt : Nat} {rec : List UInt8} (hid : g.root < id)
    (hnode : entryNode cfg w.blobs id = some (rec, nxt)) :
    ∃ pre post, v.entries = pre ++ (id, rec) :: post ∧ id < nxt ∧
      Segment (entryNode cfg w.blobs) nxt post v.frontier := by
  obtain ⟨x, hx⟩ := ho.clean id hid (entryNode_bound hnode)
  obtain ⟨pre, post, hsplit⟩ := List.append_of_mem hx
  have hseg := ho.running.1.chain.segment
  rw [hsplit, Segment.append_iff] at hseg
  obtain ⟨_, _, rfl, n, hn, hlt, hpost⟩ := hseg
  rw [hnode] at hn
  simp only [Option.some.injEq, Prod.mk.injEq] at hn
  obtain ⟨rfl, rfl⟩ := hn
  exact ⟨pre, post, hsplit, hlt, hpost⟩

theorem bound (ho : InOrder cfg g v h l w) {e : LogEntry} (he : e ∈ l.kept) :
    w.blobs e.1 ≠ none := by
  rw [ho.tracks.kept] at he
  exact ho.running.1.chain.bound he

-- The oldest entry, where there is one.
theorem head (ho : InOrder cfg g v h l w) (h0 : h.headId ≠ 0) :
    g.root < h.headId ∧ ∃ rec, (h.headId, rec) ∈ l.kept := by
  rw [ho.running.2.2.mirrors.head] at h0 ⊢
  have hne : v.entries ≠ [] := fun hnil => h0 (LogView.headId_nil hnil)
  rw [LogView.headId_eq hne]
  refine ⟨ho.running.1.above, ?_⟩
  rw [ho.tracks.kept]
  cases hv : v.entries with
  | nil => exact absurd hv hne
  | cons e es => exact ⟨e.2, by simp [LogView.first, hv]⟩

theorem next_eq (ho : InOrder cfg g v h l w) : h.nextFree = l.next :=
  ho.running.2.2.mirrors.next.trans ho.tracks.next.symm

-- Where a delivery comes from.
theorem start_above (ho : InOrder cfg g v h l w) (hc : Stands g l c m) (h0 : c.start h ≠ 0) :
    g.root < c.start h := by
  unfold LogringCursor.start at h0 ⊢
  split
  . next hpos => exact (hc.placed hpos).1
  . next hpos =>
    rw [if_neg hpos] at h0
    exact (ho.head h0).1

-- A cursor whose place is not bound is not at the oldest entry.
theorem placed_of_unbound (ho : InOrder cfg g v h l w) (h0 : c.start h ≠ 0)
    (hb : w.blobs (c.start h) = none) : c.pos ≠ 0 ∧ c.start h = c.pos := by
  unfold LogringCursor.start at h0 hb ⊢
  split
  . next hpos => exact ⟨hpos, rfl⟩
  . next hpos =>
    rw [if_neg hpos] at h0 hb
    obtain ⟨_, rec, hmem⟩ := ho.head h0
    exact absurd hb (ho.bound hmem)

theorem not_foreign (ho : InOrder cfg g v h l w) (hc : Stands g l c m) : ¬ c.Foreign h := by
  rintro ⟨hz, hne⟩
  rw [ho.running.2.2.epoch] at hne
  rcases hc.epoch with he | he
  . exact hz he
  . exact hne he

theorem delivered (ho : InOrder cfg g v h l w) (hc : Stands g l c m) (h0 : c.start h ≠ 0)
    {rec : List UInt8} {nxt : Nat} (hnode : entryNode cfg w.blobs (c.start h) = some (rec, nxt)) :
    Told l m c ⟨nxt, h.epoch⟩ (.delivered (c.start h, rec)) ∧
      Stands g l ⟨nxt, h.epoch⟩ ⟨m.seen ++ [(c.start h, rec)], some (c.start h, rec)⟩ := by
  have hroot := ho.start_above hc h0
  obtain ⟨pre, post, hsplit, hlt, hpost⟩ := ho.entry hroot hnode
  have hmem : (c.start h, rec) ∈ l.kept := by
    rw [ho.tracks.kept, hsplit]
    simp
  have hbound := ho.sane.kept_suffix.subset hmem
  have hle : nxt ≤ l.next := by
    rw [ho.tracks.next]
    exact hpost.le
  have hseen : ∀ x ∈ m.seen, x.1 < c.start h := by
    intro x hx
    by_cases hpos : c.pos = 0
    . exact ((hc.oldest hpos).2 x hx).2 _ hmem
    . rw [LogringCursor.start, if_pos hpos]
      exact (hc.placed hpos).2.2 x hx
  refine ⟨⟨hmem, hseen, fun e0 he0 => ?_⟩, ?_⟩
  . by_cases hpos : c.pos = 0
    . rw [(hc.oldest hpos).1] at he0
      cases he0
    . have hstart : c.start h = c.pos := if_pos hpos
      obtain ⟨hb0, hlt0, hnone, _⟩ := hc.after hpos e0 he0
      rw [hstart] at hbound ⊢
      exact adjacent_of_ascending ho.sane.ascending hb0 hbound hlt0 hnone
  . refine ⟨.inr ho.running.2.2.epoch, fun hz => ?_, fun _ => ⟨hroot.trans hlt, hle, ?_⟩, ?_, by rintro _ ⟨⟩⟩
    . simp only at hz
      omega
    . intro x hx
      rw [List.mem_append, List.mem_singleton] at hx
      rcases hx with hx | rfl
      . exact (hseen x hx).trans hlt
      . exact hlt
    . intro _ e he
      cases he
      refine ⟨hbound, hlt, fun y hy hey => ?_, fun _ => ?_⟩
      . -- what was bound later is kept, and so comes after the entry
        have hkept := ho.sane.kept_of_lt hmem hy hey
        have hasc := ho.sane.kept_ascending
        rw [ho.tracks.kept, hsplit] at hkept hasc
        rw [List.pairwise_append] at hasc
        rw [List.mem_append, List.mem_cons] at hkept
        rcases hkept with hkept | rfl | hkept
        . have := hasc.2.2 y hkept _ List.mem_cons_self
          omega
        . omega
        . exact hpost.le_mem hkept
      . rw [ho.tracks.kept, ho.tracks.next, hsplit]
        cases post with
        | nil => exact .inl hpost
        | cons f post =>
          obtain ⟨rfl, _⟩ := hpost
          exact .inr ⟨f.2, by simp⟩

theorem gone (ho : InOrder cfg g v h l w) (hc : Stands g l c m) (h0 : c.start h ≠ 0)
    (hb : w.blobs (c.start h) = none) (hlt : c.start h < h.nextFree) :
    Stands g l ⟨0, h.epoch⟩ ⟨m.seen, none⟩ := by
  obtain ⟨hpos, hstart⟩ := ho.placed_of_unbound h0 hb
  rw [hstart] at hb hlt
  rw [ho.next_eq] at hlt
  obtain ⟨_, hle, hseen⟩ := hc.placed hpos
  -- what is kept lies past the cursor
  have hpast : ∀ y ∈ l.kept, c.pos < y.1 := by
    intro y hy
    have hny : y.1 ≠ c.pos := fun he => ho.bound hy (he ▸ hb)
    have hyb := ho.sane.kept_suffix.subset hy
    by_contra hnot
    have hyp : y.1 < c.pos := by omega
    cases hlast : m.last with
    | none =>
      obtain ⟨x, hx⟩ := hc.fresh hpos hlast
      exact ho.bound (ho.sane.kept_of_lt hy hx hyp) hb
    | some e =>
      obtain ⟨heb, _, hnone, hkept⟩ := hc.after hpos e hlast
      have hek : e ∉ l.kept := by
        intro hek
        rcases hkept hek with heq | ⟨x, hx⟩
        . omega
        . exact ho.bound hx hb
      rcases Nat.lt_trichotomy y.1 e.1 with hye | hye | hye
      . exact hek (ho.sane.kept_of_lt hy heb hye)
      . exact hek (eq_of_ascending ho.sane.ascending hyb heb hye ▸ hy)
      . have := hnone y hyb hye
        omega
  refine ⟨.inr ho.running.2.2.epoch, fun _ => ⟨rfl, fun x hx => ?_⟩, fun hz => absurd rfl hz,
    fun hz => absurd rfl hz, fun hz => absurd rfl hz⟩
  have := hseen x hx
  exact ⟨by omega, fun y hy => this.trans (hpast y hy)⟩

theorem empty (ho : InOrder cfg g v h l w) (hc : Stands g l c m) (h0 : c.start h = 0) :
    Told l m c c (.refused Errno.ENOENT) := by
  have hpos : c.pos = 0 := by
    by_contra hpos
    rw [LogringCursor.start, if_pos hpos] at h0
    exact hpos h0
  rw [LogringCursor.start, if_neg (by simpa using hpos)] at h0
  refine ⟨rfl, fun e he => ?_, fun _ => ⟨hpos, ?_⟩⟩
  . rw [(hc.oldest hpos).1] at he
    cases he
  . rw [ho.tracks.kept]
    by_contra hne
    rw [ho.running.2.2.mirrors.head, LogView.headId_eq hne] at h0
    have := ho.running.1.above
    omega

theorem caughtUp (ho : InOrder cfg g v h l w) (hc : Stands g l c m) (h0 : c.start h ≠ 0)
    (hb : w.blobs (c.start h) = none) (hle : h.nextFree ≤ c.start h) :
    Told l m c c (.refused Errno.ENOENT) := by
  obtain ⟨hpos, hstart⟩ := ho.placed_of_unbound h0 hb
  rw [hstart, ho.next_eq] at hle
  refine ⟨rfl, fun e he => ?_, fun hlast => ?_⟩
  . obtain ⟨heb, _, hnone, _⟩ := hc.after hpos e he
    refine getLast?_of_ascending ho.sane.ascending heb fun y hy hlt => ?_
    have h1 := hnone y hy hlt
    have h2 := ho.sane.below y hy
    omega
  . obtain ⟨x, hx⟩ := hc.fresh hpos hlast
    have := ho.sane.below _ hx
    omega

end InOrder

def noteOf : Except Errno LogEntry → ReaderNote
  | .ok e => .delivered e
  | .error e => .refused e

theorem Answer.told (ho : InOrder cfg g v h l w) (hc : Stands g l c m)
    {a : Except Errno (Nat × List UInt8) × LogringCursor}
    (ha : Answer cfg w.blobs h c outSz a) :
    Told l m c a.2 (noteOf a.1) ∧ Stands g l a.2 (m.after (noteOf a.1)) := by
  cases ha with
  | foreign hf => exact absurd hf (ho.not_foreign hc)
  | empty _ h0 => exact ⟨ho.empty hc h0, hc⟩
  | delivered _ h0 hnode _ => exact ho.delivered hc h0 hnode
  | gone _ h0 hb hlt => exact ⟨rfl, ho.gone hc h0 hb hlt⟩
  | caughtUp _ h0 hb hle => exact ⟨ho.caughtUp hc h0 hb hle, hc⟩
  | short => exact ⟨rfl, hc⟩
  | broken _ h0 _ hb hnone =>
    obtain ⟨x, hx⟩ := ho.clean _ (ho.start_above hc h0) hb
    obtain ⟨n, hn⟩ := ho.running.1.chain.segment.node_mem hx
    rw [hnone] at hn
    cases hn

/-! Runs -/

-- No call failed but the binding of a new entry or a root that neither evicts nor empties.
structure Quiet (w : LogWorld) : Prop where
  orderly : Orderly w
  deleted : ∀ id, ¬ Undeleted w.history id

theorem Quiet.before {w w' : LogWorld} (h : Quiet w') (hle : w ≤ w') : Quiet w :=
  ⟨h.orderly.before hle, fun id hu => h.deleted id (hu.later hle)⟩

-- The log, the ledger, and where the cursors stand.
structure Watched (cfg : LogCfg) (g : LogId) (d : LogView) (l : Ledger) (s : Readers)
    (ms : Nat → Mark) : Prop where
  inUse : InUse cfg g d s.log
  tracks : l.Tracks d
  sane : l.Sane
  stands : ∀ i, Stands g l (s.cursors i) (ms i)

variable {d : LogView} {s : Readers} {ms : Nat → Mark}

theorem Watched.inOrder (hw : Watched cfg g d l s ms) (hq : Quiet s.log) {h : Logring}
    (hram : s.log.ram = some h) : InOrder cfg g d h l s.log := by
  rcases hw.inUse with ⟨v, h', hrun⟩ | ⟨hnone, _⟩
  . have hh : h' = h := by
      have := hrun.2.1
      rw [hram] at this
      exact (Option.some.inj this).symm
    subst hh
    obtain ⟨rfl, hclean⟩ := hrun.1.in_step hq.orderly.calm
    refine ⟨hrun, hw.tracks, hw.sane, fun id hid hb => ?_⟩
    rcases hclean id hid hb with hmem | ⟨_, hmem⟩ | hu
    . exact hmem
    . cases hmem
    . exact absurd hu (hq.deleted id)
  . rw [hram] at hnone
    cases hnone

-- A cursor that was not moved.
theorem Watched.stay (hw : Watched cfg g d l s ms) (i : Nat) :
    Watched cfg g d l s (Function.update ms i ((ms i).after .closed)) := by
  rw [Mark.after, Function.update_eq_self]
  . exact hw
  all_goals exact nofun

-- One cursor is set.
theorem Watched.set (hw : Watched cfg g d l s ms) {i : Nat} {c : LogringCursor} {m : Mark}
    (hc : Stands g l c m) : Watched cfg g d l (s.set i c) (Function.update ms i m) where
  inUse := hw.inUse
  tracks := hw.tracks
  sane := hw.sane
  stands := by
    intro j
    by_cases hj : j = i
    . subst hj
      simpa [Readers.set] using hc
    . simpa [Readers.set, hj] using hw.stands j

theorem Readers.next_told (hw : Watched cfg g d l s ms) (hq : Quiet s.log) (i : Nat)
    (outSz : Option Nat) :
    Told l (ms i) (s.cursors i) ((s.next cfg i outSz).2.cursors i) (s.next cfg i outSz).1 ∧
      Watched cfg g d l (s.next cfg i outSz).2 (track ms (.next i outSz) (s.next cfg i outSz).1) := by
  cases hram : s.log.ram with
  | none =>
    have hhandle : handle (s.log.enterLog ⟨.powerOff, [], [], []⟩) =
        (.err Errno.EINVAL, s.log.enterLog ⟨.powerOff, [], [], []⟩) := handle_closed hram
    have hclosed : logringNext cfg (s.cursors i) outSz (s.log.enterLog ⟨.powerOff, [], [], []⟩) =
        (.err Errno.EINVAL, s.log.enterLog ⟨.powerOff, [], [], []⟩) := Proc.bind_err hhandle
    simp only [Readers.next, hclosed]
    exact ⟨rfl, hw.stay i⟩
  | some h =>
    have ho := hw.inOrder hq hram
    have hstay := logringNext_steady cfg (s.cursors i) outSz
      (s.log.enterLog ⟨.powerOff, [], [], []⟩) rfl
    have hspec := @logringNext_spec cfg h (s.log.enterLog ⟨.powerOff, [], [], []⟩) hram
      (s.cursors i) outSz
    have hpost := hspec _ (World.Reread.refl _) (by rw [hstay]; exact hq.orderly.faithful)
    unfold Readers.next
    generalize logringNext cfg (s.cursors i) outSz
      (s.log.enterLog ⟨.powerOff, [], [], []⟩) = o at hpost
    obtain ⟨o, t⟩ := o
    cases o with
    | err e => exact hpost.elim
    | cut => exact hpost.elim
    | ok a =>
      obtain ⟨htold, hstands⟩ := hpost.2.told ho (hw.stands i)
      obtain ⟨r, c⟩ := a
      cases r with
      | ok e =>
        refine ⟨?_, hw.set hstands⟩
        simpa only [Readers.set, Function.update_self, noteOf] using htold
      | error e =>
        refine ⟨?_, hw.set hstands⟩
        simpa only [Readers.set, Function.update_self, noteOf] using htold

theorem Readers.seek_watched (hw : Watched cfg g d l s ms) (i : Nat) {f : Logring → LogringCursor}
    (hf : ∀ h, s.log.ram = some h → Stands g l (f h) ⟨[], none⟩) :
    Watched cfg g d l (s.seek i f).2 (Function.update ms i ((ms i).after (s.seek i f).1)) := by
  unfold Readers.seek
  cases hram : s.log.ram with
  | none => exact hw.stay i
  | some h => exact hw.set (hf h hram)

theorem InOrder.seekOldest (ho : InOrder cfg g v h l w) :
    Stands g l (logringSeekOldest h) ⟨[], none⟩ where
  epoch := .inr ho.running.2.2.epoch
  oldest := fun _ => ⟨rfl, nofun⟩
  placed := fun hz => absurd rfl hz
  after := fun hz => absurd rfl hz
  fresh := fun hz => absurd rfl hz

theorem InOrder.seekNewest (ho : InOrder cfg g v h l w) :
    Stands g l (logringSeekNewest h) ⟨[], none⟩ := by
  have htail := ho.running.2.2.mirrors.tail
  -- the newest entry, where there is one
  have hnewest : h.tailId ≠ 0 → g.root < h.tailId ∧ ∃ rec, (h.tailId, rec) ∈ l.kept := by
    rw [htail, ho.tracks.kept]
    intro h0
    rcases List.eq_nil_or_concat v.entries with hnil | ⟨pre, e, he⟩
    . exact absurd (LogView.tailId_nil hnil) h0
    . rw [List.concat_eq_append] at he
      rw [LogView.tailId_snoc he]
      have hmem : e ∈ v.entries := by simp [he]
      have hle := ho.running.1.chain.segment.le_mem hmem
      have habove := ho.running.1.above
      exact ⟨by omega, e.2, hmem⟩
  refine ⟨.inr ho.running.2.2.epoch, fun _ => ⟨rfl, nofun⟩, fun h0 => ?_, nofun, fun h0 _ => ?_⟩
  . obtain ⟨hroot, rec, hmem⟩ := hnewest h0
    exact ⟨hroot, (ho.sane.below _ (ho.sane.kept_suffix.subset hmem)).le, nofun⟩
  . obtain ⟨_, rec, hmem⟩ := hnewest h0
    exact ⟨rec, ho.sane.kept_suffix.subset hmem⟩

theorem readerStep_grows (cfg : LogCfg) (root : Nat) (s : Readers) (op : ReaderOp) :
    s.log ≤ (readerStep cfg root s op).2.log := by
  cases op with
  | call c => exact logStep_grows cfg root s.log c
  | seekOldest i =>
    simp only [readerStep, Readers.seek]
    split <;> exact le_rfl
  | seekNewest i =>
    simp only [readerStep, Readers.seek]
    split <;> exact le_rfl
  | next i outSz =>
    simp only [readerStep, Readers.next]
    split <;> exact le_rfl
  | copy i j => exact le_rfl

theorem readerStep_watched (hcfg : cfg.Valid) (hw : Watched cfg g d l s ms) (op : ReaderOp)
    (hq : Quiet (readerStep cfg g.root s op).2.log) :
    ∃ d' l', Watched cfg g d' l' (readerStep cfg g.root s op).2
        (track ms op (readerStep cfg g.root s op).1) ∧
      Ledger.Steps (callsOf [op]) (repliesOf [(readerStep cfg g.root s op).1]) l l' := by
  have hq0 := hq.before (readerStep_grows cfg g.root s op)
  cases op with
  | call c =>
    obtain ⟨d', hstepped⟩ := logStep_stepped hcfg hw.inUse hq.orderly.faithful
    obtain ⟨l', hstep, htracks⟩ := hstepped.ledger hq.orderly.calm l hw.tracks
    exact ⟨d', l', ⟨hstepped.inUse, htracks, hstep.sane hw.sane,
      fun i => (hw.stands i).step hw.sane hstep⟩, .cons hstep (.nil l')⟩
  | seekOldest i =>
    refine ⟨d, l, Readers.seek_watched hw i fun h hram => (hw.inOrder hq0 hram).seekOldest, ?_⟩
    simp only [readerStep, Readers.seek]
    split <;> exact .nil l
  | seekNewest i =>
    refine ⟨d, l, Readers.seek_watched hw i fun h hram => (hw.inOrder hq0 hram).seekNewest, ?_⟩
    simp only [readerStep, Readers.seek]
    split <;> exact .nil l
  | next i outSz =>
    refine ⟨d, l, (Readers.next_told hw hq0 i outSz).2, ?_⟩
    simp only [readerStep, Readers.next]
    split <;> exact .nil l
  | copy i j => exact ⟨d, l, hw.set (hw.stands i), .nil l⟩

theorem runReaders_grows (cfg : LogCfg) (root : Nat) (s : Readers) (ops : List ReaderOp) :
    s.log ≤ (runReaders cfg root s ops).2.log := by
  induction ops generalizing s with
  | nil => exact le_rfl
  | cons op ops ih => exact le_trans (readerStep_grows cfg root s op) (ih _)

theorem runReaders_watched (hcfg : cfg.Valid) (ops : List ReaderOp) (hw : Watched cfg g d l s ms)
    (hq : Quiet (runReaders cfg g.root s ops).2.log) :
    ∃ d' l', Watched cfg g d' l' (runReaders cfg g.root s ops).2
        (marksOf ms ops (runReaders cfg g.root s ops).1) ∧
      Ledger.Steps (callsOf ops) (repliesOf (runReaders cfg g.root s ops).1) l l' := by
  induction ops generalizing d l s ms with
  | nil => exact ⟨d, l, hw, .nil l⟩
  | cons op ops ih =>
    obtain ⟨d1, l1, hw1, hsteps1⟩ := readerStep_watched hcfg hw op
      (hq.before (runReaders_grows cfg g.root _ ops))
    obtain ⟨d2, l2, hw2, hsteps2⟩ := ih hw1 hq
    refine ⟨d2, l2, hw2, ?_⟩
    have hsteps := hsteps1.append hsteps2
    unfold callsOf repliesOf at hsteps
    rw [← List.filterMap_append, ← List.filterMap_append] at hsteps
    exact hsteps

-- Readers of a log miss nothing without being told.
theorem logring_readers_told {cap rand : UInt32} {w0 : LogWorld} {root : Nat}
    (hc : Created cfg cap rand w0 root) (ops : List ReaderOp) (i : Nat) (outSz : Option Nat)
    (hq : Quiet (runReaders cfg root (.start (logringCreate cfg cap rand w0).2) ops).2.log) :
    ∃ first l,
      Ledger.Steps (callsOf ops)
        (repliesOf (runReaders cfg root (.start (logringCreate cfg cap rand w0).2) ops).1)
        (.empty first) l ∧
      Told l
        (marksOf (fun _ => ⟨[], none⟩) ops
          (runReaders cfg root (.start (logringCreate cfg cap rand w0).2) ops).1 i)
        ((runReaders cfg root (.start (logringCreate cfg cap rand w0).2) ops).2.cursors i)
        ((readerStep cfg root (runReaders cfg root (.start (logringCreate cfg cap rand w0).2) ops).2
          (.next i outSz)).2.cursors i)
        (readerStep cfg root (runReaders cfg root (.start (logringCreate cfg cap rand w0).2) ops).2
          (.next i outSz)).1 := by
  have hgrows := runReaders_grows cfg root (.start (logringCreate cfg cap rand w0).2) ops
  obtain ⟨g, first, rfl, _, huse⟩ := hc.inUse (hq.before hgrows).orderly.faithful
  have hw : Watched cfg g ⟨[], first⟩ (.empty first) (.start (logringCreate cfg cap rand w0).2)
      fun _ => ⟨[], none⟩ :=
    ⟨huse, Ledger.empty_tracks first, Ledger.empty_sane first, fun _ => Stands.zero ..⟩
  obtain ⟨d, l, hw', hsteps⟩ := runReaders_watched hc.valid ops hw hq
  exact ⟨first, l, hsteps, (Readers.next_told hw' hq i outSz).1⟩

def Event.failedDelete : Event → Bool
  | .edit ⟨_, none, .error _ _, _⟩ => true
  | _ => false

theorem quiet_of {w : LogWorld} (ho : Orderly w) (hd : ∀ ev ∈ w.history, ev.failedDelete = false) :
    Quiet w where
  orderly := ho
  deleted := by
    rintro id ⟨⟨_, _, _, _⟩, err, landed, he, rfl, rfl, rfl⟩
    exact absurd (hd _ he) nofun

-- A reader that follows the log, and one that starts where it stands.
def followLog : List ReaderOp :=
  [.call ⟨.open, [], [], []⟩, .call ⟨.append [1], [], [], []⟩, .seekOldest 0, .next 0 (some 46),
    .next 0 (some 46), .copy 0 1, .call ⟨.append [2], [], [], []⟩]

theorem logring_readers_told_follow :
    ∃ first l,
      Ledger.Steps (callsOf followLog)
        (repliesOf (runReaders (smallLog 2) 2
          (.start (logringCreate (smallLog 2) 100 7 (blankStore none)).2) followLog).1)
        (.empty first) l ∧
      Told l
        (marksOf (fun _ => ⟨[], none⟩) followLog
          (runReaders (smallLog 2) 2
            (.start (logringCreate (smallLog 2) 100 7 (blankStore none)).2) followLog).1 1)
        ((runReaders (smallLog 2) 2
          (.start (logringCreate (smallLog 2) 100 7 (blankStore none)).2) followLog).2.cursors 1)
        ((readerStep (smallLog 2) 2 (runReaders (smallLog 2) 2
          (.start (logringCreate (smallLog 2) 100 7 (blankStore none)).2) followLog).2
          (.next 1 (some 46))).2.cursors 1)
        (readerStep (smallLog 2) 2 (runReaders (smallLog 2) 2
          (.start (logringCreate (smallLog 2) 100 7 (blankStore none)).2) followLog).2
          (.next 1 (some 46))).1 :=
  logring_readers_told (smallLog_created (by decide) (by decide +kernel)) _ _ _
    (quiet_of (by decide +kernel) (by decide +kernel))

-- The cursor is at the oldest entry throughout; the record comes and goes without a word.
theorem oldest_cursor_misses_reset :
    (runReaders (smallLog 2) 2 (.start (logringCreate (smallLog 2) 100 7 (blankStore none)).2)
      [.call ⟨.open, [], [], []⟩, .seekOldest 0, .call ⟨.append [1], [], [], []⟩,
        .call ⟨.reset, [], [], []⟩, .next 0 (some 46)]).1 =
      [.reply (.ok 0), .moved, .reply (.ok 3), .reply (.ok 0), .refused Errno.ENOENT] := by
  decide +kernel

end KeyValueDb.Containers
