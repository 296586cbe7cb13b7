import Mathlib.Order.Defs.PartialOrder

/-!
Stateful procedures that can return, fail with an error code, or be stopped by a loss of power, and
a logic of pre- and postconditions for them. States carry a history, which a procedure only adds to:
`s ≤ s'` says that the history of `s` is the beginning of the one of `s'`. A postcondition says what
holds at each of the three kinds of exit, and a specification is relative to a hypothesis: something
assumed of the history.
-/

namespace KeyValueDb

-- How a procedure ends.
inductive Out (ε α : Type) where
  | ok (a : α)
  | err (e : ε)
  | cut
  deriving Repr, DecidableEq

def Out.of {ε α : Type} : Except ε α → Out ε α
  | .ok a => .ok a
  | .error e => .err e

theorem Out.of_ok {ε α : Type} {r : Except ε α} {a : α} (h : Out.of r = .ok a) : r = .ok a := by
  cases r with
  | ok b =>
    cases h
    rfl
  | error e => cases h

-- A procedure over states `σ` with error codes `ε`.
def Proc (σ : Type) [Preorder σ] (ε α : Type) : Type :=
  { x : σ → Out ε α × σ // ∀ s, s ≤ (x s).2 }

namespace Proc

variable {σ ε α β γ : Type} [Preorder σ]

instance : CoeFun (Proc σ ε α) (fun _ => σ → Out ε α × σ) := ⟨Subtype.val⟩

theorem grows (x : Proc σ ε α) (s : σ) : s ≤ (x s).2 := x.property s

def ret (a : α) : Proc σ ε α := ⟨fun s => (.ok a, s), fun s => le_refl s⟩

def step (x : Out ε α × σ) (f : α → σ → Out ε β × σ) : Out ε β × σ :=
  match x with
  | (.ok a, s) => f a s
  | (.err e, s) => (.err e, s)
  | (.cut, s) => (.cut, s)

theorem le_step (x : Out ε α × σ) (f : α → Proc σ ε β) : x.2 ≤ (step x fun a => f a).2 := by
  obtain ⟨o, s⟩ := x
  cases o with
  | ok a => exact (f a).grows s
  | err e => exact le_refl s
  | cut => exact le_refl s

def andThen (x : Proc σ ε α) (f : α → Proc σ ε β) : Proc σ ε β where
  val s := step (x s) fun a => f a
  property s := le_trans (x.grows s) (le_step (x s) f)

instance : Monad (Proc σ ε) where
  pure := ret
  bind := andThen

def fail (e : ε) : Proc σ ε α := ⟨fun s => (.err e, s), fun s => le_refl s⟩

-- Power is gone: nothing runs after this.
def cut : Proc σ ε α := ⟨fun s => (.cut, s), fun s => le_refl s⟩

def caught (x : Out ε α × σ) : Out ε (Except ε α) × σ :=
  match x with
  | (.ok a, s) => (.ok (.ok a), s)
  | (.err e, s) => (.ok (.error e), s)
  | (.cut, s) => (.cut, s)

theorem le_caught (x : Out ε α × σ) : x.2 ≤ (caught x).2 := by
  obtain ⟨o, s⟩ := x
  cases o <;> exact le_refl s

-- Run `x` and hand its error code to the caller as a value. A loss of power is not caught.
def attempt (x : Proc σ ε α) : Proc σ ε (Except ε α) where
  val s := caught (x s)
  property s := le_trans (x.grows s) (le_caught (x s))

def read (f : σ → α) : Proc σ ε α := ⟨fun s => (.ok (f s), s), fun s => le_refl s⟩

def modify (f : σ → σ) (hf : ∀ s, s ≤ f s) : Proc σ ε Unit := ⟨fun s => (.ok (), f s), hf⟩

def ofExcept : Except ε α → Proc σ ε α
  | .ok a => ret a
  | .error e => fail e

def when (c : Bool) (x : Proc σ ε Unit) : Proc σ ε Unit := if c then x else ret ()

theorem bind_run (x : Proc σ ε α) (f : α → Proc σ ε β) (s : σ) :
    (x >>= f) s = step (x s) fun a => f a := rfl

theorem bind_assoc (x : Proc σ ε α) (f : α → Proc σ ε β) (g : β → Proc σ ε γ) :
    (x >>= f) >>= g = x >>= fun a => f a >>= g := by
  apply Subtype.ext
  funext s
  show step (step (x s) _) _ = step (x s) _
  generalize x s = r
  obtain ⟨o, t⟩ := r
  cases o <;> rfl

theorem bind_ok {x : Proc σ ε α} {f : α → Proc σ ε β} {s s' : σ} {a : α}
    (h : x s = (.ok a, s')) : (x >>= f) s = f a s' := by
  rw [bind_run, h]
  rfl

theorem bind_err {x : Proc σ ε α} {f : α → Proc σ ε β} {s s' : σ} {e : ε}
    (h : x s = (.err e, s')) : (x >>= f) s = (.err e, s') := by
  rw [bind_run, h]
  rfl

theorem bind_cut {x : Proc σ ε α} {f : α → Proc σ ε β} {s s' : σ}
    (h : x s = (.cut, s')) : (x >>= f) s = (.cut, s') := by
  rw [bind_run, h]
  rfl

-- A sequence that returns is one whose parts return.
theorem bind_eq_ok {x : Proc σ ε α} {f : α → Proc σ ε β} {s s' : σ} {b : β}
    (h : (x >>= f) s = (.ok b, s')) : ∃ a t, x s = (.ok a, t) ∧ f a t = (.ok b, s') := by
  rw [bind_run] at h
  generalize x s = r at h
  obtain ⟨o, t⟩ := r
  cases o with
  | ok a => exact ⟨a, t, rfl, h⟩
  | err e => cases h
  | cut => cases h

@[simp]
theorem pure_run (a : α) (s : σ) : (pure a : Proc σ ε α) s = (.ok a, s) := rfl

@[simp]
theorem ret_run (a : α) (s : σ) : (ret a : Proc σ ε α) s = (.ok a, s) := rfl

@[simp]
theorem fail_run (e : ε) (s : σ) : (fail e : Proc σ ε α) s = (.err e, s) := rfl

@[simp]
theorem cut_run (s : σ) : (cut : Proc σ ε α) s = (.cut, s) := rfl

@[simp]
theorem read_run (f : σ → α) (s : σ) : (read f : Proc σ ε α) s = (.ok (f s), s) := rfl

@[simp]
theorem modify_run (f : σ → σ) (hf : ∀ s, s ≤ f s) (s : σ) :
    (modify f hf : Proc σ ε Unit) s = (.ok (), f s) := rfl

theorem ofExcept_run (r : Except ε α) (s : σ) : (ofExcept r : Proc σ ε α) s = (.of r, s) := by
  cases r <;> rfl

theorem attempt_run (x : Proc σ ε α) (s : σ) : attempt x s = caught (x s) := rfl

end Proc

-- What holds at each kind of exit.
structure Post (σ ε α : Type) where
  ok : α → σ → Prop
  err : ε → σ → Prop
  cut : σ → Prop

namespace Post

variable {σ ε α : Type}

def Holds (Q : Post σ ε α) : Out ε α × σ → Prop
  | (.ok a, s) => Q.ok a s
  | (.err e, s) => Q.err e s
  | (.cut, s) => Q.cut s

-- One assertion where the procedure returns, another where it fails, a third at a loss of power.
def exits (I E C : σ → Prop) : Post σ ε α := ⟨fun _ => I, fun _ => E, C⟩

-- The procedure fails.
def stops (E : ε → σ → Prop) : Post σ ε α := ⟨fun _ _ => False, E, fun _ => False⟩

end Post

-- Something assumed of a history, and so of each of its beginnings.
structure Hypothesis (σ : Type) [Preorder σ] where
  holds : σ → Prop
  anti : ∀ {s t}, s ≤ t → holds t → holds s

-- From a state with `P`, whatever exit `x` takes under the hypothesis, `Q` holds there.
def Spec {σ ε α : Type} [Preorder σ] (H : Hypothesis σ) (P : σ → Prop) (x : Proc σ ε α)
    (Q : Post σ ε α) : Prop :=
  ∀ s, P s → H.holds (x s).2 → Q.Holds (x s)

namespace Spec

variable {σ ε α β : Type} [Preorder σ] {H : Hypothesis σ} {P P' : σ → Prop}

theorem ret {Q : Post σ ε α} {a : α} (h : ∀ s, P s → Q.ok a s) : Spec H P (pure a) Q :=
  fun s hp _ => h s hp

theorem fail {Q : Post σ ε α} {e : ε} (h : ∀ s, P s → Q.err e s) : Spec H P (Proc.fail e) Q :=
  fun s hp _ => h s hp

theorem cut {Q : Post σ ε α} (h : ∀ s, P s → Q.cut s) : Spec H P Proc.cut Q :=
  fun s hp _ => h s hp

theorem read {Q : Post σ ε α} {f : σ → α} (h : ∀ s, P s → Q.ok (f s) s) :
    Spec H P (Proc.read f) Q :=
  fun s hp _ => h s hp

theorem modify {Q : Post σ ε Unit} {f : σ → σ} {hf : ∀ s, s ≤ f s}
    (h : ∀ s, P s → Q.ok () (f s)) : Spec H P (Proc.modify f hf) Q :=
  fun s hp _ => h s hp

theorem bind {Q : Post σ ε α} {R : Post σ ε β} {x : Proc σ ε α} {f : α → Proc σ ε β}
    (hx : Spec H P x Q) (hf : ∀ a, Spec H (Q.ok a) (f a) R)
    (herr : ∀ e s, Q.err e s → R.err e s) (hcut : ∀ s, Q.cut s → R.cut s) :
    Spec H P (x >>= f) R := by
  intro s hp
  have hpost := hx s hp
  rw [Proc.bind_run]
  generalize x s = r at hpost
  obtain ⟨o, s'⟩ := r
  cases o with
  | ok a =>
    intro hh
    -- the history at the end of x is the beginning of the one at the end of f
    have hq := hpost (H.anti ((f a).grows s') hh)
    exact hf a s' hq hh
  | err e =>
    intro hh
    exact herr e s' (hpost hh)
  | cut =>
    intro hh
    exact hcut s' (hpost hh)

-- Nothing comes after a procedure that fails.
theorem stop {E : ε → σ → Prop} {x : Proc σ ε α} (f : α → Proc σ ε β)
    (hx : Spec H P x (.stops E)) : Spec H P (x >>= f) (.stops E) :=
  hx.bind (fun _ _ h => h.elim) (fun _ _ h => h) fun _ h => h

-- What a procedure reads first is so in the state it goes on from.
theorem read_bind {Q : Post σ ε β} {f : σ → α} {g : α → Proc σ ε β}
    (h : ∀ a, Spec H (fun s => f s = a ∧ P s) (g a) Q) : Spec H P (Proc.read f >>= g) Q :=
  fun s hp hh => h (f s) s ⟨rfl, hp⟩ hh

theorem ret_bind {Q : Post σ ε β} {a : α} {g : α → Proc σ ε β} (h : Spec H P (g a) Q) :
    Spec H P (pure a >>= g) Q :=
  fun s hp hh => h s hp hh

-- A procedure whose answer is only wrapped up.
theorem of_map {Q : Post σ ε β} {x : Proc σ ε α} {f : α → β}
    (hx : Spec H P (x >>= fun a => pure (f a)) Q) :
    Spec H P x ⟨fun a s => Q.ok (f a) s, Q.err, Q.cut⟩ := by
  intro s hp hh
  have hq := hx s hp
  rw [Proc.bind_run] at hq
  generalize x s = r at hq hh
  obtain ⟨o, s'⟩ := r
  cases o <;> exact hq hh

theorem attempt {Q : Post σ ε α} {x : Proc σ ε α} (hx : Spec H P x Q) :
    Spec H P (Proc.attempt x)
      ⟨fun r s => match r with | .ok a => Q.ok a s | .error e => Q.err e s, fun _ _ => False,
        Q.cut⟩ := by
  intro s hp
  have hpost := hx s hp
  rw [Proc.attempt_run]
  generalize x s = r at hpost
  obtain ⟨o, s'⟩ := r
  cases o with
  | ok a => exact hpost
  | err e => exact hpost
  | cut => exact hpost

theorem conseq {Q R : Post σ ε α} {x : Proc σ ε α} (hx : Spec H P x Q) (hpre : ∀ s, P' s → P s)
    (hok : ∀ a s, Q.ok a s → R.ok a s) (herr : ∀ e s, Q.err e s → R.err e s)
    (hcut : ∀ s, Q.cut s → R.cut s) : Spec H P' x R := by
  intro s hp hh
  have hq := hx s (hpre s hp) hh
  generalize x s = r at hq
  obtain ⟨o, s'⟩ := r
  cases o with
  | ok a => exact hok a s' hq
  | err e => exact herr e s' hq
  | cut => exact hcut s' hq

theorem pre {Q : Post σ ε α} {x : Proc σ ε α} (hx : Spec H P x Q) (hpre : ∀ s, P' s → P s) :
    Spec H P' x Q :=
  fun s hp hh => hx s (hpre s hp) hh

-- Two specifications of one procedure hold together.
theorem both {Q R : Post σ ε α} {x : Proc σ ε α} (hq : Spec H P x Q) (hr : Spec H P' x R) :
    Spec H (fun s => P s ∧ P' s) x
      ⟨fun a s => Q.ok a s ∧ R.ok a s, fun e s => Q.err e s ∧ R.err e s,
        fun s => Q.cut s ∧ R.cut s⟩ := by
  intro s hp hh
  have h1 := hq s hp.1 hh
  have h2 := hr s hp.2 hh
  generalize x s = r at h1 h2
  obtain ⟨o, s'⟩ := r
  cases o with
  | ok a => exact ⟨h1, h2⟩
  | err e => exact ⟨h1, h2⟩
  | cut => exact ⟨h1, h2⟩

-- What later states keep is still so at every exit.
theorem keeping {Q : Post σ ε α} {x : Proc σ ε α} {M : σ → Prop}
    (hM : ∀ s t, s ≤ t → M s → M t) (hx : Spec H P x Q) :
    Spec H (fun s => P s ∧ M s) x
      ⟨fun a s => Q.ok a s ∧ M s, fun e s => Q.err e s ∧ M s, fun s => Q.cut s ∧ M s⟩ := by
  intro s hp hh
  have hq := hx s hp.1 hh
  have hm := hM s _ (x.grows s) hp.2
  generalize x s = r at hq hm
  obtain ⟨o, s'⟩ := r
  cases o with
  | ok a => exact ⟨hq, hm⟩
  | err e => exact ⟨hq, hm⟩
  | cut => exact ⟨hq, hm⟩

-- All that is known of an exit: it was reached from a state with `P`.
theorem run (x : Proc σ ε α) :
    Spec H P x
      ⟨fun a s => ∃ t, P t ∧ x t = (.ok a, s), fun e s => ∃ t, P t ∧ x t = (.err e, s),
        fun s => ∃ t, P t ∧ x t = (.cut, s)⟩ := by
  intro t hp _
  generalize hr : x t = r
  obtain ⟨o, s⟩ := r
  cases o with
  | ok a => exact ⟨t, hp, hr⟩
  | err e => exact ⟨t, hp, hr⟩
  | cut => exact ⟨t, hp, hr⟩

-- A fact the precondition gives of every state may be used as a hypothesis.
theorem assuming {Q : Post σ ε α} {x : Proc σ ε α} {φ : Prop} (hφ : ∀ s, P s → φ)
    (h : φ → Spec H P x Q) : Spec H P x Q :=
  fun s hp hh => h (hφ s hp) s hp hh

-- A hypothesis may be strengthened.
theorem under {Q : Post σ ε α} {x : Proc σ ε α} {H' : Hypothesis σ}
    (hH : ∀ s, H'.holds s → H.holds s) (h : Spec H P x Q) : Spec H' P x Q :=
  fun s hp hh => h s hp (hH _ hh)

theorem fact {Q : Post σ ε α} {x : Proc σ ε α} {φ : Prop} (h : φ → Spec H P x Q) :
    Spec H (fun s => φ ∧ P s) x Q :=
  fun s hp hh => h hp.1 s hp.2 hh

theorem given {ι : Type} {P : ι → σ → Prop} {Q : Post σ ε α} {x : Proc σ ε α}
    (h : ∀ i, Spec H (P i) x Q) : Spec H (fun s => ∃ i, P i s) x Q :=
  fun s ⟨i, hp⟩ hh => h i s hp hh

theorem either {Q : Post σ ε α} {x : Proc σ ε α} (h : Spec H P x Q) (h' : Spec H P' x Q) :
    Spec H (fun s => P s ∨ P' s) x Q := by
  rintro s (hp | hp) hh
  . exact h s hp hh
  . exact h' s hp hh

theorem ite {Q : Post σ ε α} {c : Prop} [Decidable c] {x y : Proc σ ε α} (hx : c → Spec H P x Q)
    (hy : ¬c → Spec H P y Q) : Spec H P (if c then x else y) Q := by
  split
  . next h => exact hx h
  . next h => exact hy h

/-! One assertion for each exit -/

variable {I E C : σ → Prop}

theorem seq {x : Proc σ ε α} {f : α → Proc σ ε β} (hx : Spec H P x (.exits I E C))
    (hf : ∀ a, Spec H I (f a) (.exits P' E C)) : Spec H P (x >>= f) (.exits P' E C) :=
  hx.bind hf (fun _ _ h => h) (fun _ h => h)

-- What runs after a caught error starts from the assertion of the failed exit.
theorem caught {Q : Post σ ε β} {x : Proc σ ε α} {f : Except ε α → Proc σ ε β}
    (hx : Spec H P x (.exits I E C)) (hok : ∀ a, Spec H I (f (.ok a)) Q)
    (herr : ∀ e, Spec H E (f (.error e)) Q) (hcut : ∀ s, C s → Q.cut s) :
    Spec H P (Proc.attempt x >>= f) Q := by
  apply hx.attempt.bind
  . intro r
    cases r with
    | ok a => exact hok a
    | error e => exact herr e
  . intro e s h
    exact h.elim
  . exact hcut

theorem when {c : Bool} {x : Proc σ ε Unit} (hpi : ∀ s, P s → I s)
    (hx : c = true → Spec H P x (.exits I E C)) :
    Spec H P (Proc.when c x) (.exits I E C) := by
  unfold Proc.when
  split
  . next h => exact hx h
  . exact Spec.ret hpi

theorem ofExcept {r : Except ε α} (hpi : ∀ s, P s → I s) (hpe : ∀ s, P s → E s) :
    Spec H P (Proc.ofExcept r) (.exits I E C) := by
  cases r with
  | ok a => exact Spec.ret hpi
  | error e => exact Spec.fail hpe

theorem ofExcept_bind {Q : Post σ ε β} {r : Except ε α} {f : α → Proc σ ε β}
    (herr : ∀ e, r = .error e → ∀ s, P s → Q.err e s)
    (hok : ∀ a, r = .ok a → Spec H P (f a) Q) : Spec H P (Proc.ofExcept r >>= f) Q := by
  cases r with
  | ok a => exact hok a rfl
  | error e => exact fun s hp _ => herr e rfl s hp

end Spec

/-! What every exit of a procedure keeps -/

def Maintains {σ ε α : Type} [Preorder σ] (I : σ → Prop) (x : Proc σ ε α) : Prop :=
  ∀ s, I s → I (x s).2

namespace Maintains

variable {σ ε α β : Type} [Preorder σ] {I : σ → Prop}

theorem ret (a : α) : Maintains I (pure a : Proc σ ε α) := fun _ h => h

theorem fail (e : ε) : Maintains I (Proc.fail e : Proc σ ε α) := fun _ h => h

theorem read (f : σ → α) : Maintains I (Proc.read f : Proc σ ε α) := fun _ h => h

theorem bind {x : Proc σ ε α} {f : α → Proc σ ε β} (hx : Maintains I x)
    (hf : ∀ a, Maintains I (f a)) : Maintains I (x >>= f) := by
  intro s hs
  have h := hx s hs
  rw [Proc.bind_run]
  generalize x s = r at h
  obtain ⟨o, t⟩ := r
  cases o with
  | ok a => exact hf a t h
  | err e => exact h
  | cut => exact h

theorem attempt {x : Proc σ ε α} (hx : Maintains I x) : Maintains I (Proc.attempt x) := by
  intro s hs
  have h := hx s hs
  rw [Proc.attempt_run]
  generalize x s = r at h
  obtain ⟨o, t⟩ := r
  cases o <;> exact h

theorem ite {c : Prop} [Decidable c] {x y : Proc σ ε α} (hx : Maintains I x)
    (hy : Maintains I y) : Maintains I (if c then x else y) := by
  split
  . exact hx
  . exact hy

theorem when {c : Bool} {x : Proc σ ε Unit} (hx : Maintains I x) : Maintains I (Proc.when c x) :=
  ite hx (ret ())

theorem ofExcept (r : Except ε α) : Maintains I (Proc.ofExcept r : Proc σ ε α) := by
  cases r <;> exact fun _ h => h

theorem of_spec {x : Proc σ ε α} (hx : ∀ H : Hypothesis σ, Spec H I x (.exits I I I)) :
    Maintains I x := by
  intro s hs
  have h := hx ⟨fun _ => True, fun _ h => h⟩ s hs trivial
  generalize x s = r at h
  obtain ⟨o, t⟩ := r
  cases o <;> exact h

-- As a specification.
theorem spec {x : Proc σ ε α} (hx : Maintains I x) (H : Hypothesis σ) :
    Spec H I x (.exits I I I) := by
  intro s hs _
  have h := hx s hs
  generalize x s = r at h
  obtain ⟨o, t⟩ := r
  cases o <;> exact h

end Maintains

-- A specification under a hypothesis that what is kept anyway gives.
theorem Spec.maintaining {σ ε α : Type} [Preorder σ] {H H' : Hypothesis σ} {P I : σ → Prop}
    {x : Proc σ ε α} {Q : Post σ ε α} (hI : ∀ s, I s → H.holds s) (hx : Spec H P x Q)
    (hm : ∀ s, P s → I s → I (x s).2) :
    Spec H' (fun s => P s ∧ I s) x
      ⟨fun a s => Q.ok a s ∧ I s, fun e s => Q.err e s ∧ I s, fun s => Q.cut s ∧ I s⟩ := by
  intro s hp _
  have hi := hm s hp.1 hp.2
  have hq := hx s hp.1 (hI _ hi)
  generalize x s = r at hq hi
  obtain ⟨o, t⟩ := r
  cases o with
  | ok a => exact ⟨hq, hi⟩
  | err e => exact ⟨hq, hi⟩
  | cut => exact ⟨hq, hi⟩

/-! A part of the state that leaves no history -/

structure WithRam (σ τ : Type) where
  base : σ
  ram : τ

instance {σ τ : Type} [Preorder σ] : Preorder (WithRam σ τ) where
  le s t := s.base ≤ t.base
  le_refl s := le_refl s.base
  le_trans _ _ _ h1 h2 := le_trans h1 h2

variable {σ τ ε α : Type} [Preorder σ]

-- A procedure that does not know of the other part.
def Proc.below (x : Proc σ ε α) : Proc (WithRam σ τ) ε α where
  val s := ((x s.base).1, ⟨(x s.base).2, s.ram⟩)
  property s := x.grows s.base

theorem Proc.below_run (x : Proc σ ε α) (s : WithRam σ τ) :
    (x.below : Proc (WithRam σ τ) ε α) s = ((x s.base).1, ⟨(x s.base).2, s.ram⟩) := rfl

theorem Proc.below_fail (e : ε) : (Proc.fail e : Proc σ ε α).below = (Proc.fail e : Proc (WithRam σ τ) ε α) :=
  rfl

theorem Proc.below_bind {β : Type} (x : Proc σ ε α) (f : α → Proc σ ε β) :
    ((x >>= f).below : Proc (WithRam σ τ) ε β) = x.below >>= fun a => (f a).below := by
  apply Subtype.ext
  funext s
  show ((step (x s.base) _).1, _) = step _ _
  rw [below_run, bind_run]
  generalize x s.base = r
  obtain ⟨o, t⟩ := r
  cases o <;> rfl

theorem Proc.below_attempt (x : Proc σ ε α) :
    ((Proc.attempt x).below : Proc (WithRam σ τ) ε (Except ε α)) = Proc.attempt x.below := by
  apply Subtype.ext
  funext s
  rw [below_run, attempt_run, attempt_run, below_run]
  generalize x s.base = r
  obtain ⟨o, t⟩ := r
  cases o <;> rfl

theorem Proc.below_ite {c : Prop} [Decidable c] (x y : Proc σ ε α) :
    ((if c then x else y).below : Proc (WithRam σ τ) ε α) = if c then x.below else y.below :=
  apply_ite _ _ _ _

def Hypothesis.below (H : Hypothesis σ) : Hypothesis (WithRam σ τ) where
  holds s := H.holds s.base
  anti h hh := H.anti h hh

-- The other part stays what it is.
def Post.below (Q : Post σ ε α) (φ : τ → Prop) : Post (WithRam σ τ) ε α where
  ok a s := Q.ok a s.base ∧ φ s.ram
  err e s := Q.err e s.base ∧ φ s.ram
  cut s := Q.cut s.base ∧ φ s.ram

theorem Spec.below {H : Hypothesis σ} {P : σ → Prop} {x : Proc σ ε α} {Q : Post σ ε α}
    (h : Spec H P x Q) (φ : τ → Prop) :
    Spec H.below (fun s => P s.base ∧ φ s.ram) x.below (Q.below φ) := by
  intro s hp hh
  have hq := h s.base hp.1 hh
  rw [Proc.below_run]
  generalize x s.base = r at hq
  obtain ⟨o, t⟩ := r
  cases o <;> exact ⟨hq, hp.2⟩

/-! Procedures that only look -/

-- From every state with `P` the answer is `r`, and nothing changes.
def Says (P : σ → Prop) (x : Proc σ ε α) (r : Except ε α) : Prop := ∀ s, P s → x s = (.of r, s)

namespace Says

variable {β : Type} {P : σ → Prop} {x : Proc σ ε α} {r : Except ε α} {a : α} {e : ε}

theorem ret (a : α) : Says P (pure a : Proc σ ε α) (.ok a) := fun _ _ => rfl

theorem fail (e : ε) : Says P (Proc.fail e : Proc σ ε α) (.error e) := fun _ _ => rfl

theorem ofExcept (r : Except ε α) : Says P (Proc.ofExcept r : Proc σ ε α) r :=
  fun s _ => Proc.ofExcept_run r s

theorem bind {f : α → Proc σ ε β} {q : Except ε β} (hx : Says P x (.ok a)) (hf : Says P (f a) q) :
    Says P (x >>= f) q := by
  intro s hp
  rw [Proc.bind_run, hx s hp]
  exact hf s hp

theorem bind_error {f : α → Proc σ ε β} (hx : Says P x (.error e)) : Says P (x >>= f) (.error e) := by
  intro s hp
  rw [Proc.bind_run, hx s hp]
  rfl

theorem attempt (hx : Says P x r) : Says P (Proc.attempt x) (.ok r) := by
  intro s hp
  rw [Proc.attempt_run, hx s hp]
  cases r <;> rfl

theorem pre {P' : σ → Prop} (hx : Says P x r) (h : ∀ s, P' s → P s) : Says P' x r :=
  fun s hp => hx s (h s hp)

theorem below {Q : WithRam σ τ → Prop} (hx : Says P x r) (h : ∀ s, Q s → P s.base) :
    Says Q (x.below : Proc (WithRam σ τ) ε α) r := by
  intro s hq
  rw [Proc.below_run, hx s.base (h s hq)]

-- What comes after one goes on from the same states with its answer.
theorem rule {H : Hypothesis σ} {f : α → Proc σ ε β} {Q : Post σ ε β} (hx : Says P x r)
    (herr : ∀ e, r = .error e → ∀ s, P s → Q.err e s) (hok : ∀ a, r = .ok a → Spec H P (f a) Q) :
    Spec H P (x >>= f) Q := by
  intro s hp hh
  rw [Proc.bind_run, hx s hp] at hh ⊢
  cases r with
  | ok a => exact hok a rfl s hp hh
  | error e => exact herr e rfl s hp

theorem rule_ok {H : Hypothesis σ} {f : α → Proc σ ε β} {Q : Post σ ε β} (hx : Says P x (.ok a))
    (hf : Spec H P (f a) Q) : Spec H P (x >>= f) Q := by
  apply hx.rule
  . nofun
  . rintro _ ⟨⟩
    exact hf

end Says

end KeyValueDb
