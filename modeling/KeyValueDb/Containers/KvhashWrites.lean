import KeyValueDb.Containers.KvhashTable

/-!
What the writes of a map do, one by one: an update or a delete that fails has changed nothing, and a
loss of power has either come before it or after it.
-/

namespace KeyValueDb.Containers

-- An error that does not say that something is not there.
def Errno.Telling (e : Errno) : Prop := e ≠ Errno.ENOENT ∧ e ≠ Errno.ENODATA

variable {cfg : KvCfg} {H : Hypothesis (World KvRam)} {b : Blobs} {top : Nat} {lim : Nat × Nat}
  {dir bkt : List UInt8}

theorem plain_telling {ρ : Type} {w : World ρ} (h : plain.holds w) : telling.holds w :=
  fun ev hev => (h ev hev).1

theorem Sees.edited {s : World KvRam} (hs : Sees b top lim dir bkt s) (id : Nat)
    (data : Option (List UInt8)) {t : Turn} (ht : t.landed = true) :
    Sees (Function.update b id data) top lim dir bkt (s.edit id data t) where
  blobs := by rw [s.edit_blobs id data ht, hs.blobs]
  top := hs.top
  lim := hs.lim
  dir := hs.dir
  bkt := hs.bkt

theorem Sees.unedited {s : World KvRam} (hs : Sees b top lim dir bkt s) (id : Nat)
    (data : Option (List UInt8)) {t : Turn} (ht : t.landed = false) :
    Sees b top lim dir bkt (s.edit id data t) where
  blobs := by simp only [World.edit, ht, Bool.false_eq_true, if_false, hs.blobs]
  top := hs.top
  lim := hs.lim
  dir := hs.dir
  bkt := hs.bkt

-- The write may have taken effect or not.
def Either (b : Blobs) (top : Nat) (lim : Nat × Nat) (dir bkt : List UInt8) (id : Nat)
    (data : Option (List UInt8)) (s : World KvRam) : Prop :=
  Sees b top lim dir bkt s ∨ Sees (Function.update b id data) top lim dir bkt s

def updatePost (b : Blobs) (top : Nat) (lim : Nat × Nat) (dir bkt : List UInt8) (id : Nat)
    (payload : List UInt8) : Post (World KvRam) Errno Unit where
  ok _ s := Sees (Function.update b id (some payload)) top lim dir bkt s
  err e s := e.Telling ∧ Sees b top lim dir bkt s
  cut s := Either b top lim dir bkt id (some payload) s

theorem Sees.cut {s : World KvRam} (hs : Sees b top lim dir bkt s) (id : Nat)
    (data : Option (List UInt8)) (landed : Bool) :
    Either b top lim dir bkt id data (s.edit id data (.cut landed)) := by
  cases landed with
  | false => exact .inl (hs.unedited id data rfl)
  | true => exact .inr (hs.edited id data rfl)

variable (hH : ∀ w, H.holds w → plain.holds w)

include hH

theorem failed_edit {s : World KvRam} {id : Nat} {data : Option (List UInt8)} {e : Errno}
    {landed : Bool} (hh : H.holds (s.edit id data (.error e landed))) : e.Telling ∧ landed = false := by
  obtain ⟨htell, hplain⟩ := hH _ hh (.edit ⟨id, data, .error e landed, s.blobs⟩)
    (by simp [World.edit])
  refine ⟨htell e landed rfl, ?_⟩
  cases landed with
  | false => rfl
  | true => exact absurd rfl (hplain _ rfl e)

theorem kvUpdate_spec (id : Nat) (payload : List UInt8) :
    Spec H (Sees b top lim dir bkt) (kvUpdate cfg id payload)
      (updatePost b top lim dir bkt id payload) := by
  refine Spec.blobDbUpdate ?_ ?_ ?_ ?_
  . intro s hs _
    exact hs.edited id _ rfl
  . intro s e landed hs hh
    obtain ⟨htold, rfl⟩ := failed_edit hH hh
    exact ⟨htold, hs.unedited id _ rfl⟩
  . intro s landed hs _
    exact hs.cut id _ landed
  . intro s hs _
    exact ⟨⟨nofun, nofun⟩, hs⟩

theorem kvDelete_spec (id : Nat) :
    Spec H (Sees b top lim dir bkt) (kvDelete id)
      ⟨fun _ => Sees (Function.update b id none) top lim dir bkt, fun _ => Sees b top lim dir bkt,
        Either b top lim dir bkt id none⟩ := by
  refine Spec.blobDbDelete ?_ ?_ ?_ ?_
  . intro s hs _
    exact hs.edited id _ rfl
  . intro s e landed hs _ hh
    obtain ⟨_, rfl⟩ := failed_edit hH hh
    exact hs.unedited id _ rfl
  . intro s landed hs _
    exact hs.cut id _ landed
  . intro s hs _
    exact hs

theorem releasePart_spec (id : Nat) :
    Spec H (Sees b top lim dir bkt) (releasePart id)
      ⟨fun _ s => Sees b top lim dir bkt s ∨ id ≠ 0 ∧ Either b top lim dir bkt id none s,
        fun _ _ => False,
        fun s => Sees b top lim dir bkt s ∨ id ≠ 0 ∧ Either b top lim dir bkt id none s⟩ := by
  refine Spec.ite (fun _ => Spec.ret fun s hs => .inl hs) fun hid => ?_
  refine (kvDelete_spec hH id).attempt.bind ?_ (fun _ _ h => h.elim) fun s hs => .inr ⟨hid, hs⟩
  rintro (e | u)
  . exact Spec.ret fun s hs => .inl hs
  . exact Spec.ret fun s hs => .inr ⟨hid, .inr hs⟩

omit hH in
theorem blobDbAllocId_spec :
    Spec H (Sees b top lim dir bkt) blobDbAllocId
      ⟨fun id s => id = 0 ∧ Sees b top lim dir bkt s ∨
          (top < id ∧ id < 2 ^ 64) ∧ Sees b id lim dir bkt s,
        fun _ _ => False, fun _ => False⟩ := by
  refine Spec.blobDbAllocId ?_ ?_
  . intro s gap hs hlt
    refine .inr ⟨⟨?_, hlt⟩, hs.blobs, ?_, hs.lim, hs.dir, hs.bkt⟩
    . rw [hs.top]
      omega
    . rfl
  . intro s hs
    exact .inl ⟨rfl, hs.blobs, hs.top, hs.lim, hs.dir, hs.bkt⟩

end KeyValueDb.Containers
