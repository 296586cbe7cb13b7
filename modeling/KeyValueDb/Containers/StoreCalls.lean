import KeyValueDb.Containers.BlobStore

/-!
What a client of the store keeps, whatever it does: an assertion that the calls of the store keep is
kept by every procedure that is made of them, and one that the reads keep by every procedure that only
reads.
-/

namespace KeyValueDb.Containers

variable {ρ α β : Type} {cfg : StoreCfg} {I : World ρ → Prop} {w : World ρ}

-- The assertion outlasts the reads and what a client does in its RAM.
structure Reads (I : World ρ → Prop) : Prop where
  done : ∀ w, I w → I w.readDone
  failed : ∀ w id e, w.reads.headD none = some e → I w → I (w.readFailed id e)
  ram : ∀ w r, I w → I (w.setRam r)

-- It outlasts the deletes, too.
structure Deletes (I : World ρ → Prop) : Prop extends Reads I where
  delete : ∀ id, Maintains I (blobDbDelete id : M ρ Unit)

-- It outlasts every call.
structure Calls (cfg : StoreCfg) (I : World ρ → Prop) : Prop extends Deletes I where
  update : ∀ id payload, Maintains I (blobDbUpdate cfg id payload : M ρ Unit)
  alloc : Maintains I (blobDbAllocId : M ρ Nat)

-- The procedure only reads.
def Views (x : M ρ α) : Prop := ∀ I, Reads I → Maintains I x

-- It reads and deletes.
def Clears (x : M ρ α) : Prop := ∀ I, Deletes I → Maintains I x

-- All it does is to call the store.
def Client (cfg : StoreCfg) (x : M ρ α) : Prop := ∀ I, Calls cfg I → Maintains I x

namespace Views

theorem ret (a : α) : Views (pure a : M ρ α) := fun _ _ => Maintains.ret a

theorem fail (e : Errno) : Views (Proc.fail e : M ρ α) := fun _ _ => Maintains.fail e

theorem read (f : World ρ → α) : Views (Proc.read f : M ρ α) := fun _ _ => Maintains.read f

theorem bind {x : M ρ α} {f : α → M ρ β} (hx : Views x) (hf : ∀ a, Views (f a)) :
    Views (x >>= f) := fun I hI => (hx I hI).bind fun a => hf a I hI

theorem attempt {x : M ρ α} (hx : Views x) : Views (Proc.attempt x) := fun I hI => (hx I hI).attempt

theorem ite {c : Prop} [Decidable c] {x y : M ρ α} (hx : Views x) (hy : Views y) :
    Views (if c then x else y) := fun I hI => Maintains.ite (hx I hI) (hy I hI)

theorem ofExcept (r : Except Errno α) : Views (Proc.ofExcept r : M ρ α) :=
  fun _ _ => Maintains.ofExcept r

theorem readBlob (id : Nat) (f : Blobs → Out Errno α) : Views (Containers.readBlob id f : M ρ α) := by
  intro I hI w hw
  simp only [Containers.readBlob]
  split
  . exact hI.done w hw
  . next e he => exact hI.failed w id e he hw

theorem getRam : Views (Containers.getRam : M ρ ρ) := read _

theorem putRam (r : ρ) : Views (Containers.putRam r : M ρ Unit) := fun _ hI w hw => hI.ram w r hw

theorem client {x : M ρ α} (hx : Views x) : Client cfg x := fun I hI => hx I hI.toReads

theorem silent {x : M ρ α} (hx : Views x) : Silent x := by
  intro w hw
  refine hx (fun s => s.reads = [] ∧ s.history = w.history) ⟨?_, ?_, ?_⟩ w ⟨hw, rfl⟩
  . intro s hs
    exact ⟨by rw [World.readDone, hs.1, List.tail_nil], hs.2⟩
  . intro s id e he hs
    rw [hs.1] at he
    cases he
  . exact fun s r hs => hs

end Views

namespace Clears

theorem ret (a : α) : Clears (pure a : M ρ α) := fun _ _ => Maintains.ret a

theorem fail (e : Errno) : Clears (Proc.fail e : M ρ α) := fun _ _ => Maintains.fail e

theorem bind {x : M ρ α} {f : α → M ρ β} (hx : Clears x) (hf : ∀ a, Clears (f a)) :
    Clears (x >>= f) := fun I hI => (hx I hI).bind fun a => hf a I hI

theorem attempt {x : M ρ α} (hx : Clears x) : Clears (Proc.attempt x) := fun I hI => (hx I hI).attempt

theorem ite {c : Prop} [Decidable c] {x y : M ρ α} (hx : Clears x) (hy : Clears y) :
    Clears (if c then x else y) := fun I hI => Maintains.ite (hx I hI) (hy I hI)

theorem blobDbDelete (id : Nat) : Clears (Containers.blobDbDelete id : M ρ Unit) := fun _ hI => hI.delete id

theorem client {x : M ρ α} (hx : Clears x) : Client cfg x := fun I hI => hx I hI.toDeletes

end Clears

theorem Views.clears {x : M ρ α} (hx : Views x) : Clears x := fun I hI => hx I hI.toReads

namespace Client

theorem ret (a : α) : Client cfg (pure a : M ρ α) := (Views.ret a).client

theorem fail (e : Errno) : Client cfg (Proc.fail e : M ρ α) := (Views.fail e).client

theorem cut : Client cfg (Proc.cut : M ρ α) := fun _ _ _ hw => hw

theorem read (f : World ρ → α) : Client cfg (Proc.read f : M ρ α) := (Views.read f).client

theorem bind {x : M ρ α} {f : α → M ρ β} (hx : Client cfg x) (hf : ∀ a, Client cfg (f a)) :
    Client cfg (x >>= f) := fun I hI => (hx I hI).bind fun a => hf a I hI

theorem attempt {x : M ρ α} (hx : Client cfg x) : Client cfg (Proc.attempt x) :=
  fun I hI => (hx I hI).attempt

theorem ite {c : Prop} [Decidable c] {x y : M ρ α} (hx : Client cfg x) (hy : Client cfg y) :
    Client cfg (if c then x else y) := fun I hI => Maintains.ite (hx I hI) (hy I hI)

theorem when {c : Bool} {x : M ρ Unit} (hx : Client cfg x) : Client cfg (Proc.when c x) :=
  ite hx (ret ())

theorem ofExcept (r : Except Errno α) : Client cfg (Proc.ofExcept r : M ρ α) :=
  (Views.ofExcept r).client

theorem blobDbUpdate (id : Nat) (payload : List UInt8) :
    Client cfg (Containers.blobDbUpdate cfg id payload : M ρ Unit) := fun _ hI => hI.update id payload

theorem blobDbDelete (id : Nat) : Client cfg (Containers.blobDbDelete id : M ρ Unit) :=
  fun _ hI => hI.delete id

theorem blobDbAllocId : Client cfg (Containers.blobDbAllocId : M ρ Nat) := fun _ hI => hI.alloc

theorem readBlob (id : Nat) (f : Blobs → Out Errno α) :
    Client cfg (Containers.readBlob id f : M ρ α) := (Views.readBlob id f).client

theorem getRam : Client cfg (Containers.getRam : M ρ ρ) := read _

theorem putRam (r : ρ) : Client cfg (Containers.putRam r : M ρ Unit) := (Views.putRam r).client

-- What a client goes on with once it has read.
theorem after {x : M ρ α} {f : α → M ρ β} (hx : Views x) (hf : ∀ a, Client cfg (f a)) :
    Client cfg (x >>= f) := hx.client.bind hf

theorem tidies {x : M ρ α} (hx : Client cfg x) : Tidies x := by
  intro w hw
  -- every call keeps the store tidy and loses no id
  have hcall : ∀ {γ : Type} {y : M ρ γ}, Tidies y → Maintains
      (fun s => s.Tidy ∧ w.top ≤ s.top ∧ (w.top < 2 ^ 64 → s.top < 2 ^ 64)) y := by
    intro γ y hy s hs
    obtain ⟨htidy, hle, hlt⟩ := hy s hs.1
    exact ⟨htidy, hs.2.1.trans hle, fun h => hlt (hs.2.2 h)⟩
  refine hx (fun s => s.Tidy ∧ w.top ≤ s.top ∧ (w.top < 2 ^ 64 → s.top < 2 ^ 64))
    ⟨⟨⟨fun s hs => hs, fun s _ _ _ hs => hs, fun s _ hs => hs⟩, ?_⟩, ?_, ?_⟩ w
    ⟨hw, le_rfl, fun h => h⟩
  . exact fun id => hcall (Tidies.blobDbDelete id)
  . exact fun id payload => hcall (Tidies.blobDbUpdate cfg id payload)
  . exact hcall Tidies.blobDbAllocId

end Client

theorem Views.tidies {x : M ρ α} (hx : Views x) : Tidies x :=
  (hx.client : Client ⟨0, 0, 0⟩ x).tidies

/-! How a write ends -/

-- An update is refused for its arguments, or for want of room, or meets its turn.
theorem blobDbUpdate_met (cfg : StoreCfg) (w : World ρ) (id : Nat) (payload : List UInt8) :
    (id = 0 ∨ w.top < id ∨ cfg.maxObject < payload.length) ∧
        blobDbUpdate cfg id payload w = (.err Errno.EINVAL, w) ∨
      (id ≠ 0 ∧ id ≤ w.top ∧ payload.length ≤ cfg.maxObject) ∧
        (w.used + payload.length ≤ cfg.partition + w.blobs.size id ∧ blobDbUpdate cfg id payload w =
            (w.nextTurn.outcome, w.edit id (some payload) w.nextTurn) ∨
          cfg.partition + w.blobs.size id < w.used + payload.length ∧ blobDbUpdate cfg id payload w =
            (w.nextTurn.refused.outcome, w.edit id (some payload) w.nextTurn.refused)) := by
  unfold blobDbUpdate
  rw [Proc.bind_run, Proc.read_run, Proc.step]
  by_cases hbad : id = 0 ∨ w.top < id ∨ cfg.maxObject < payload.length
  . rw [if_pos hbad]
    exact .inl ⟨hbad, rfl⟩
  . rw [if_neg hbad, Proc.bind_run, Proc.read_run, Proc.step]
    refine .inr ⟨by omega, ?_⟩
    by_cases hfits : w.used + payload.length ≤ cfg.partition + w.blobs.size id
    . simp only [hfits, decide_true, if_true]
      exact .inl ⟨trivial, rfl⟩
    . simp only [hfits, decide_false, Bool.false_eq_true, if_false]
      exact .inr ⟨by omega, rfl⟩

theorem blobDbDelete_met (w : World ρ) (id : Nat) :
    w.blobs id = none ∧ blobDbDelete id w = (.err Errno.ENOENT, w) ∨
      w.blobs id ≠ none ∧
        blobDbDelete id w = (w.nextTurn.outcome, w.edit id none w.nextTurn) := by
  unfold blobDbDelete
  rw [Proc.bind_run, Proc.read_run, Proc.step]
  cases hb : w.blobs id with
  | none => exact .inl ⟨rfl, rfl⟩
  | some data => exact .inr ⟨by rintro ⟨⟩, rfl⟩

/-! The room in the store -/

-- The payloads fit into the partition, and each of them into an object.
structure World.Fit (cfg : StoreCfg) (w : World ρ) : Prop where
  tallied : Tallied cfg w.blobs w.used
  object : ∀ id data, w.blobs id = some data → data.length ≤ cfg.maxObject

theorem World.Fit.edit (h : w.Fit cfg) {id : Nat} {data : Option (List UInt8)} {t : Turn}
    (hlen : (data.getD []).length ≤ cfg.maxObject)
    (hfits : t.landed = true → w.used + (data.getD []).length ≤ cfg.partition + w.blobs.size id) :
    (w.edit id data t).Fit cfg := by
  cases ht : t.landed with
  | false =>
    refine ⟨?_, ?_⟩
    . simp only [World.edit, ht, Bool.false_eq_true, if_false]
      exact h.tallied
    . simp only [World.edit, ht, Bool.false_eq_true, if_false]
      exact h.object
  | true =>
    refine ⟨?_, fun i d hd => ?_⟩
    . rw [w.edit_blobs id data ht, w.edit_used id data ht]
      exact h.tallied.update (hfits ht)
    . rw [w.edit_blobs id data ht] at hd
      by_cases hi : i = id
      . subst hi
        rw [Function.update_self] at hd
        rw [hd] at hlen
        exact hlen
      . rw [Function.update_of_ne hi] at hd
        exact h.object i d hd

theorem Turn.refused_unlanded (t : Turn) : t.refused.landed = false := by
  cases t <;> rfl

theorem fit_calls (cfg : StoreCfg) : Calls cfg (World.Fit cfg : World ρ → Prop) where
  done _ h := ⟨h.tallied, h.object⟩
  failed _ _ _ _ h := ⟨h.tallied, h.object⟩
  ram _ _ h := ⟨h.tallied, h.object⟩
  update id payload := by
    intro w h
    rcases blobDbUpdate_met cfg w id payload with ⟨_, hr⟩ | ⟨⟨_, _, hlen⟩, ⟨hfits, hr⟩ | ⟨_, hr⟩⟩
    all_goals rw [hr]
    . exact h
    . exact h.edit hlen fun _ => hfits
    . refine h.edit hlen fun ht => ?_
      rw [Turn.refused_unlanded] at ht
      cases ht
  delete id := by
    intro w h
    rcases blobDbDelete_met w id with ⟨_, hr⟩ | ⟨_, hr⟩
    all_goals rw [hr]
    . exact h
    . have hused := h.tallied.1
      refine h.edit (Nat.zero_le _) fun _ => ?_
      simp only [Option.getD_none, List.length_nil]
      omega
  alloc := by
    intro w h
    simp only [blobDbAllocId]
    split
    . exact ⟨h.tallied, h.object⟩
    . split <;> exact ⟨h.tallied, h.object⟩

end KeyValueDb.Containers
