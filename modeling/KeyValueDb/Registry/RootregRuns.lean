import KeyValueDb.Containers.StoreCalls
import KeyValueDb.Registry.Rootreg

/-!
The registry as a system: its calls in any order, each with what the store does meanwhile. What is
kept is a table of keys, and no call changes more of it than its own key.
-/

namespace KeyValueDb.Rootreg

open Containers

variable {ρ α : Type}

-- The entries in the payload of id 1, if that is a registry.
def registry (cfg : RegCfg) (b : Blobs) : Option (List RrEntry) :=
  match b blobDbRootId with
  | none => none
  | some data => (rrCheck cfg data).toOption

def bindings (cfg : RegCfg) (b : Blobs) (key : UInt64) : Option UInt64 :=
  match registry cfg b with
  | none => none
  | some es => binding es key

-- A registry has each key once.
def Sound (cfg : RegCfg) (b : Blobs) : Prop := ∀ es, registry cfg b = some es → Distinct es

/-! Faults -/

-- A read that failed does not answer as if there was no blob.
def Finds : Event → Prop
  | .edit _ => True
  | .readError _ e => e ≠ Errno.ENOENT

instance : DecidablePred Finds
  | .edit _ => .isTrue trivial
  | .readError _ e => inferInstanceAs (Decidable (e ≠ Errno.ENOENT))

def Finding (hist : List Event) : Prop := ∀ ev ∈ hist, Finds ev

instance (hist : List Event) : Decidable (Finding hist) :=
  inferInstanceAs (Decidable (∀ ev ∈ hist, Finds ev))

def finding : Hypothesis (World ρ) where
  holds w := Finding w.history
  anti h hh ev hev := hh ev (List.IsSuffix.subset h hev)

-- An update has reported an error and has taken effect all the same.
def Landed (hist : List Event) : Prop :=
  ∃ e err, Event.edit e ∈ hist ∧ e.turn = .error err true

/-! What a call leaves -/

-- The client has not been at work since.
structure Rests (b : Blobs) (top : Nat) (r : ρ) (s : World ρ) : Prop where
  blobs : s.blobs = b
  top : s.top = top
  ram : s.ram = r

theorem rests_self (s : World ρ) : Rests s.blobs s.top s.ram s := ⟨rfl, rfl, rfl⟩

-- From `b` to `b'` at most the binding of one key has changed, and at most the one of `dropped` is gone.
structure Moved (cfg : RegCfg) (touched dropped : Option UInt64) (b b' : Blobs) : Prop where
  frame : ∀ id, id ≠ blobDbRootId → b' id = b id
  sound : Sound cfg b'
  own : ∀ key, touched ≠ some key → bindings cfg b' key = bindings cfg b key
  kept : ∀ key id, dropped ≠ some key → bindings cfg b key = some id → bindings cfg b' key = some id
  valid : registry cfg b ≠ none → registry cfg b' ≠ none
  bound : b blobDbRootId = none → b' blobDbRootId = none
  fresh : b blobDbRootId = some [] → b' blobDbRootId = some [] ∨ registry cfg b' ≠ none
  foreign : ∀ data, b blobDbRootId = some data → data ≠ [] → registry cfg b = none →
    b' blobDbRootId = some data

variable {cfg : RegCfg} {H : Hypothesis (World ρ)} {b b' : Blobs} {top : Nat} {r : ρ}
  {touched dropped : Option UInt64} {key : UInt64} {es es' : List RrEntry}

theorem Moved.refl (h : Sound cfg b) : Moved cfg touched dropped b b where
  frame _ _ := rfl
  sound := h
  own _ _ := rfl
  kept _ _ _ hb := hb
  valid hb := hb
  bound hb := hb
  fresh hb := .inl hb
  foreign _ hb _ _ := hb

theorem registry_image (cfg : RegCfg) (b : Blobs) (h : es.length ≤ cfg.maxRoots) :
    registry cfg (Function.update b blobDbRootId (some (rrImage es))) = some es := by
  simp only [registry, Function.update_self]
  rw [rrCheck_image cfg h]
  rfl

theorem registry_length (h : registry cfg b = some es) : es.length ≤ cfg.maxRoots := by
  simp only [registry] at h
  split at h
  . cases h
  . next data _ =>
    cases hc : rrCheck cfg data with
    | error e =>
      rw [hc] at h
      cases h
    | ok l =>
      rw [hc] at h
      cases h
      exact (rrCheck_length hc).1

theorem bindings_of (h : registry cfg b = some es) (key : UInt64) : bindings cfg b key = binding es key := by
  rw [bindings, h]

-- The registry is rewritten with other entries.
theorem Moved.store (hreg : registry cfg b = some es) (hlen : es'.length ≤ cfg.maxRoots)
    (hdistinct : Distinct es') (hown : ∀ k, touched ≠ some k → binding es' k = binding es k)
    (hkept : ∀ k id, dropped ≠ some k → binding es k = some id → binding es' k = some id) :
    Moved cfg touched dropped b (Function.update b blobDbRootId (some (rrImage es'))) := by
  have hreg' := registry_image cfg b hlen
  have hbound : ∃ data, b blobDbRootId = some data := by
    simp only [registry] at hreg
    split at hreg
    . cases hreg
    . next data hdata => exact ⟨data, hdata⟩
  obtain ⟨data, hdata⟩ := hbound
  refine ⟨fun id hid => Function.update_of_ne hid _ _, ?_, ?_, ?_, ?_, ?_, ?_, ?_⟩
  . intro l hl
    rw [hreg'] at hl
    cases hl
    exact hdistinct
  . intro k hk
    rw [bindings_of hreg', bindings_of hreg, hown k hk]
  . intro k id hk hb
    rw [bindings_of hreg] at hb
    rw [bindings_of hreg', hkept k id hk hb]
  . simp [hreg']
  . simp [hdata]
  . simp [hreg']
  . intro _ _ _ hnone
    rw [hreg] at hnone
    cases hnone

-- A new store gets an empty registry.
theorem Moved.boot (h : b blobDbRootId = some []) :
    Moved cfg touched dropped b (Function.update b blobDbRootId (some (rrImage []))) := by
  have hreg' : registry cfg (Function.update b blobDbRootId (some (rrImage []))) = some [] :=
    registry_image cfg b (Nat.zero_le _)
  have hnone : registry cfg b = none := by
    simp only [registry, h]
    rfl
  have hempty : ∀ k, bindings cfg b k = none := by
    intro k
    rw [bindings, hnone]
  refine ⟨fun id hid => Function.update_of_ne hid _ _, ?_, ?_, ?_, ?_, ?_, ?_, ?_⟩
  . intro l hl
    rw [hreg'] at hl
    cases hl
    exact List.nodup_nil
  . intro k _
    rw [bindings_of hreg', hempty]
    rfl
  . intro k id _ hb
    rw [hempty] at hb
    cases hb
  . exact fun hsome => absurd hnone hsome
  . simp [h]
  . simp [hreg']
  . intro data hdata hne
    rw [h] at hdata
    cases hdata
    exact absurd rfl hne

/-! The calls -/

theorem blobDbGet_rests {Q : Post (World ρ) Errno (List UInt8)} {id outSz : Nat}
    (hH : ∀ w, H.holds w → finding.holds w)
    (hok : ∀ data s, b id = some data → Rests b top r s → Q.ok data s)
    (herr : ∀ e s, (e = Errno.ENOENT → b id = none) → Rests b top r s → Q.err e s) :
    Spec H (Rests b top r) (blobDbGet id outSz) Q := by
  refine Spec.blobDbGet ?_ ?_ ?_ ?_
  . intro s data hs hdata _
    exact hok data _ (hs.blobs ▸ hdata) ⟨hs.blobs, hs.top, hs.ram⟩
  . intro s hs hdata
    exact herr _ _ (fun _ => hs.blobs ▸ hdata) ⟨hs.blobs, hs.top, hs.ram⟩
  . intro s data hs _ _
    exact herr _ _ nofun ⟨hs.blobs, hs.top, hs.ram⟩
  . intro s e hs hh
    have hne : e ≠ Errno.ENOENT := hH _ hh (.readError id e) List.mem_cons_self
    exact herr _ _ (fun he => absurd he hne) ⟨hs.blobs, hs.top, hs.ram⟩

theorem rrLoad_spec (hH : ∀ w, H.holds w → finding.holds w) :
    Spec H (Rests b top r) (rrLoad cfg)
      ⟨fun es s => registry cfg b = some es ∧ Rests b top r s,
        fun e s => (e = Errno.ENOENT → b blobDbRootId = none) ∧ Rests b top r s,
        fun _ => False⟩ := by
  refine (blobDbGet_rests (b := b) (r := r)
    (Q := ⟨fun data s => b blobDbRootId = some data ∧ Rests b top r s,
      fun e s => (e = Errno.ENOENT → b blobDbRootId = none) ∧ Rests b top r s, fun _ => False⟩) hH
    (fun data s hdata hs => ⟨hdata, hs⟩) (fun e s he hs => ⟨he, hs⟩)).bind ?_
    (fun _ _ h => h) fun _ h => h
  intro data
  cases hc : rrCheck cfg data with
  | ok es =>
    refine Spec.ret ?_
    rintro s ⟨hdata, hs⟩
    refine ⟨?_, hs⟩
    rw [registry, hdata]
    simp [hc, Except.toOption]
  | error e =>
    refine Spec.fail ?_
    rintro s ⟨_, hs⟩
    refine ⟨?_, hs⟩
    rintro rfl
    simp only [rrCheck] at hc
    split at hc
    . cases hc
    . split at hc
      . cases hc
      . split at hc <;> cases hc

-- The registry is as it was, or has been rewritten.
structure Wrote (cfg : RegCfg) (touched dropped : Option UInt64) (b : Blobs) (r : ρ) (s : World ρ) :
    Prop where
  moved : Moved cfg touched dropped b s.blobs
  ram : s.ram = r

-- One exit for each way a call on the registry ends.
def callPost (cfg : RegCfg) (touched dropped : Option UInt64) (b : Blobs) (r : ρ)
    (φ : α → Blobs → Prop) : Post (World ρ) Errno α where
  ok a s := Wrote cfg touched dropped b r s ∧ registry cfg s.blobs ≠ none ∧ φ a s.blobs
  err _ s := Wrote cfg touched dropped b r s ∧
    (s.blobs blobDbRootId = b blobDbRootId ∨ Landed s.history)
  cut s := Wrote cfg touched dropped b r s

theorem Rests.wrote {s : World ρ} (h : Sound cfg b) (hs : Rests b top r s) :
    Wrote cfg touched dropped b r s := by
  refine ⟨?_, hs.ram⟩
  rw [hs.blobs]
  exact Moved.refl h

theorem Rests.failed {s : World ρ} {φ : α → Blobs → Prop} {e : Errno} (h : Sound cfg b)
    (hs : Rests b top r s) : (callPost cfg touched dropped b r φ).err e s :=
  ⟨hs.wrote h, .inl (by rw [hs.blobs])⟩

theorem rrStore_spec {φ : Unit → Blobs → Prop} (h : Sound cfg b) (hlen : es.length ≤ cfg.maxRoots)
    (hmoved : Moved cfg touched dropped b (Function.update b blobDbRootId (some (rrImage es))))
    (hφ : φ () (Function.update b blobDbRootId (some (rrImage es)))) :
    Spec H (Rests b top r) (rrStore cfg es) (callPost cfg touched dropped b r φ) := by
  have hland : ∀ {s : World ρ} {t : Turn}, Rests b top r s →
      Wrote cfg touched dropped b r (s.edit blobDbRootId (some (rrImage es)) t) := by
    intro s t hs
    refine ⟨?_, hs.ram⟩
    simp only [World.edit, hs.blobs]
    split
    . exact hmoved
    . exact Moved.refl h
  refine Spec.blobDbUpdate ?_ ?_ ?_ ?_
  . intro s hs _
    refine ⟨hland hs, ?_, ?_⟩
    . rw [s.edit_blobs _ _ rfl, registry_image cfg _ hlen]
      rintro ⟨⟩
    . rw [s.edit_blobs _ _ rfl, hs.blobs]
      exact hφ
  . intro s e landed hs _
    refine ⟨hland hs, ?_⟩
    cases landed with
    | true => exact .inr ⟨_, e, List.mem_cons_self, rfl⟩
    | false =>
      refine .inl ?_
      simp [World.edit, Turn.landed, hs.blobs]
  . exact fun s landed hs _ => hland hs
  . exact fun s hs _ => hs.failed h

-- Where the key is not there, nothing has failed.
theorem rootregGet_spec (hH : ∀ w, H.holds w → finding.holds w) (key : UInt64) :
    Spec H (Rests b top r) (rootregGet cfg key)
      ⟨fun id s => bindings cfg b key = some id ∧ registry cfg b ≠ none ∧ Rests b top r s,
        fun e s => (e = Errno.ENOENT → key ≠ 0 ∧ bindings cfg b key = none) ∧ Rests b top r s,
        fun _ => False⟩ := by
  refine Spec.ite (fun _ => Spec.fail fun s hs => ⟨nofun, hs⟩) fun hkey => ?_
  refine (rrLoad_spec hH).bind ?_ ?_ fun _ hf => hf
  . intro es
    refine Spec.fact fun hreg => ?_
    cases hfind : rrFind es key with
    | none =>
      refine Spec.fail fun s hs => ⟨fun _ => ⟨hkey, ?_⟩, hs⟩
      rw [bindings_of hreg]
      exact rrFind_none.mp hfind
    | some idx =>
      refine Spec.ret fun s hs => ⟨?_, by rw [hreg]; exact nofun, hs⟩
      rw [bindings_of hreg]
      exact (rrFind_some hfind).2.2
  . rintro e s ⟨he, hs⟩
    refine ⟨fun hnoent => ⟨hkey, ?_⟩, hs⟩
    rw [bindings, registry, he hnoent]

-- Only a read that failed hides a key that is there.
theorem rootregGet_bound (hH : ∀ w, H.holds w → finding.holds w) {id : UInt64} (hkey : key ≠ 0)
    (hid : bindings cfg b key = some id) :
    Spec H (Rests b top r) (rootregGet cfg key)
      ⟨fun id' s => id' = id ∧ Rests b top r s,
        fun e s => e ≠ Errno.ENOENT ∧ ReadFailed s.history ∧ Rests b top r s, fun _ => False⟩ := by
  have hnone : b blobDbRootId ≠ none := by
    intro hnone
    simp [bindings, registry, hnone] at hid
  have hload : Spec H (Rests b top r) (rrLoad cfg)
      ⟨fun es s => registry cfg b = some es ∧ Rests b top r s,
        fun e s => e ≠ Errno.ENOENT ∧ ReadFailed s.history ∧ Rests b top r s,
        fun _ => False⟩ := by
    refine Spec.bind (Q := ⟨fun data s => b blobDbRootId = some data ∧ Rests b top r s,
      fun e s => e ≠ Errno.ENOENT ∧ ReadFailed s.history ∧ Rests b top r s, fun _ => False⟩)
      (Spec.blobDbGet ?_ ?_ ?_ ?_) ?_ (fun _ _ h => h) fun _ h => h
    . exact fun s data hs hdata _ => ⟨hs.blobs ▸ hdata, hs.blobs, hs.top, hs.ram⟩
    . exact fun s hs hdata => absurd (hs.blobs ▸ hdata) hnone
    . intro s data hs hdata hlong
      rw [hs.blobs] at hdata
      simp only [bindings, registry, hdata] at hid
      cases hc : rrCheck cfg data with
      | error e => simp [hc, Except.toOption] at hid
      | ok es =>
        have hlen := rrCheck_length hc
        simp only [RegCfg.imageMax] at hlong
        omega
    . intro s e hs hh
      exact ⟨hH _ hh (.readError _ e) List.mem_cons_self, ⟨_, e, List.mem_cons_self⟩,
        hs.blobs, hs.top, hs.ram⟩
    . intro data
      cases hc : rrCheck cfg data with
      | ok es =>
        refine Spec.ret fun s hs => ⟨?_, hs.2⟩
        rw [registry, hs.1]
        simp [hc, Except.toOption]
      | error e =>
        refine Spec.fail fun s hs => ?_
        simp [bindings, registry, hs.1, hc, Except.toOption] at hid
  refine Spec.ite (fun h0 => absurd h0 hkey) fun _ => ?_
  refine hload.bind (fun es => Spec.fact fun hreg => ?_) (fun _ _ h => h) fun _ h => h
  rw [bindings_of hreg] at hid
  cases hfind : rrFind es key with
  | none =>
    rw [rrFind_none.mp hfind] at hid
    cases hid
  | some idx =>
    have hroot := (rrFind_some hfind).2.2
    rw [hid, Option.some.injEq] at hroot
    exact Spec.ret fun s hs => ⟨hroot.symm, hs⟩

theorem rootregGetOrCreate_bound (hH : ∀ w, H.holds w → finding.holds w) {id : UInt64}
    (hkey : key ≠ 0) (hid : bindings cfg b key = some id) :
    Spec H (Rests b top r) (rootregGetOrCreate cfg key)
      ⟨fun id' s => id' = id ∧ Rests b top r s,
        fun _ s => ReadFailed s.history ∧ Rests b top r s, fun _ => False⟩ := by
  refine (rootregGet_bound hH hkey hid).attempt.bind ?_ (fun _ _ hf => hf.elim) fun _ hf => hf
  intro x
  cases x with
  | ok id' => exact Spec.ret fun s hs => hs
  | error e =>
    refine Spec.ite (fun _ => Spec.fail fun s hs => hs.2) fun he => ?_
    exact Spec.assuming (fun s hs => hs.1) fun hne => absurd (not_not.mp he) hne

-- The registry is rewritten with one entry more.
theorem rrAppend_spec {e : RrEntry} {φ : Unit → Blobs → Prop} (h : Sound cfg b)
    (hreg : registry cfg b = some es) (hnew : binding es e.key = none)
    (hlen : es.length < cfg.maxRoots)
    (hφ : φ () (Function.update b blobDbRootId (some (rrImage (es ++ [e]))))) :
    Spec H (Rests b top r) (rrStore cfg (es ++ [e])) (callPost cfg (some e.key) none b r φ) := by
  have hlen' : (es ++ [e]).length ≤ cfg.maxRoots := by
    rw [List.length_append, List.length_singleton]
    exact hlen
  refine rrStore_spec h hlen' (Moved.store hreg hlen' ((h es hreg).append hnew) ?_ ?_) hφ
  . intro k hk
    rw [binding_append hnew, if_neg fun he => hk (by rw [he])]
  . intro k id _ hid
    rw [binding_append hnew, if_neg, hid]
    rintro rfl
    rw [hnew] at hid
    cases hid

section Calls

variable (hH : ∀ w, H.holds w → finding.holds w) (h : Sound cfg b)

include hH h

theorem rootregInit_spec :
    Spec H (Rests b top r) (rootregInit cfg) (callPost cfg none none b r fun _ _ => True) := by
  refine (rrLoad_spec hH).attempt.bind ?_ (fun _ _ hf => hf.elim) fun _ hf => hf.elim
  intro x
  cases x with
  | ok es =>
    refine Spec.ret ?_
    rintro s ⟨hreg, hs⟩
    exact ⟨hs.wrote h, by rw [hs.blobs, hreg]; exact nofun, trivial⟩
  | error e =>
    refine Spec.ite (fun _ => Spec.fail fun s hs => hs.2.failed h) fun _ => ?_
    have hprobe : Spec H (Rests b top r) (blobDbGet blobDbRootId 8)
        ⟨fun data s => b blobDbRootId = some data ∧ Rests b top r s, fun _ s => Rests b top r s,
          fun _ => False⟩ :=
      blobDbGet_rests hH (fun data s hdata hs => ⟨hdata, hs⟩) fun _ _ _ hs => hs
    refine (hprobe.pre fun s hs => hs.2).attempt.bind ?_ (fun _ _ hf => hf.elim)
      fun _ hf => hf.elim
    intro x
    cases x with
    | error e => exact Spec.fail fun s hs => hs.failed h
    | ok probe =>
      refine Spec.ite (fun _ => Spec.fail fun s hs => hs.2.failed h) fun hempty => ?_
      obtain rfl : probe = [] := List.length_eq_zero_iff.mp (by omega)
      refine Spec.fact fun hb => ?_
      exact rrStore_spec h (Nat.zero_le _) (Moved.boot hb) trivial

theorem rootregCreate_spec (hkey : bindings cfg b key = none) :
    Spec H (Rests b top r) (rootregCreate cfg key)
      (callPost cfg (some key) none b r fun id b' => bindings cfg b' key = some id) := by
  refine (rrLoad_spec hH).bind ?_ (fun e s hs => hs.2.failed h) fun _ hf => hf.elim
  intro es
  refine Spec.fact fun hreg => ?_
  rw [bindings_of hreg] at hkey
  refine Spec.ite (fun _ => Spec.fail fun s hs => hs.failed h) fun hroom => ?_
  have halloc : Spec H (Rests b top r) blobDbAllocId
      ⟨fun _ s => ∃ top', Rests b top' r s, fun _ _ => False, fun _ => False⟩ := by
    refine Spec.blobDbAllocId ?_ ?_
    . exact fun s gap hs _ => ⟨_, hs.blobs, rfl, hs.ram⟩
    . exact fun s hs => ⟨top, hs.blobs, hs.top, hs.ram⟩
  refine halloc.bind ?_ (fun _ _ hf => hf.elim) fun _ hf => hf.elim
  intro id
  refine Spec.given fun top' => ?_
  refine Spec.ite (fun _ => Spec.fail fun s hs => hs.failed h) fun _ => ?_
  have hbound : bindings cfg (Function.update b blobDbRootId
      (some (rrImage (es ++ [⟨key, UInt64.ofNat id⟩])))) key = some (UInt64.ofNat id) := by
    rw [bindings_of (registry_image cfg b (by simp; omega)), binding_append hkey, if_pos rfl]
  refine (rrAppend_spec (e := ⟨key, UInt64.ofNat id⟩)
    (φ := fun _ b' => bindings cfg b' key = some (UInt64.ofNat id)) h hreg hkey (by omega)
    hbound).bind ?_ (fun _ _ he => he) fun _ hc => hc
  intro _
  exact Spec.ret fun s hs => hs

theorem rootregGetOrCreate_spec (key : UInt64) :
    Spec H (Rests b top r) (rootregGetOrCreate cfg key)
      (callPost cfg (some key) none b r fun id b' => bindings cfg b' key = some id) := by
  refine (rootregGet_spec hH key).attempt.bind ?_ (fun _ _ hf => hf.elim) fun _ hf => hf.elim
  intro x
  cases x with
  | ok id =>
    refine Spec.ret ?_
    rintro s ⟨hid, hreg, hs⟩
    refine ⟨hs.wrote h, ?_⟩
    rw [hs.blobs]
    exact ⟨hreg, hid⟩
  | error e =>
    refine Spec.ite (fun _ => Spec.fail fun s hs => hs.2.failed h) fun he => ?_
    refine Spec.fact fun hnone => ?_
    exact rootregCreate_spec hH h (hnone (not_not.mp he)).2

theorem rootregSet_spec (key rootId : UInt64) :
    Spec H (Rests b top r) (rootregSet cfg key rootId)
      (callPost cfg (some key) none b r fun _ b' => bindings cfg b' key = some rootId) := by
  refine Spec.ite (fun _ => Spec.fail fun s hs => hs.failed h) fun _ => ?_
  refine (rrLoad_spec hH).bind ?_ (fun e s hs => hs.2.failed h) fun _ hf => hf.elim
  intro es
  refine Spec.fact fun hreg => ?_
  refine Spec.ite (fun _ => Spec.fail fun s hs => hs.failed h) fun hfind => ?_
  refine Spec.ite (fun _ => Spec.fail fun s hs => hs.failed h) fun hroom => ?_
  have hnew : binding es key = none := by
    rw [← rrFind_none]
    simpa using hfind
  refine rrAppend_spec (e := ⟨key, rootId⟩) h hreg hnew (by omega) ?_
  rw [bindings_of (registry_image cfg b (by simp; omega)), binding_append hnew, if_pos rfl]

theorem rootregUnregister_spec (key : UInt64) :
    Spec H (Rests b top r) (rootregUnregister cfg key)
      (callPost cfg (some key) (some key) b r fun _ b' => bindings cfg b' key = none) := by
  refine Spec.ite (fun _ => Spec.fail fun s hs => hs.failed h) fun _ => ?_
  refine (rrLoad_spec hH).bind ?_ (fun e s hs => hs.2.failed h) fun _ hf => hf.elim
  intro es
  refine Spec.fact fun hreg => ?_
  cases hfind : rrFind es key with
  | none => exact Spec.fail fun s hs => hs.failed h
  | some idx =>
    obtain ⟨hlt, hkey, _⟩ := rrFind_some hfind
    have hlen : (rrRemove es idx).length ≤ cfg.maxRoots := by
      have := registry_length hreg
      rw [rrRemove_length]
      omega
    have hother : ∀ k, k ≠ key → binding (rrRemove es idx) k = binding es k := by
      intro k hk
      rw [binding_remove (h es hreg) hlt, hkey, if_neg hk]
    refine rrStore_spec h hlen (Moved.store hreg hlen ((h es hreg).remove hlt) ?_ ?_) ?_
    . exact fun k hk => hother k fun he => hk (by rw [he])
    . intro k id hk hid
      rw [hother k fun he => hk (by rw [he]), hid]
    . rw [bindings_of (registry_image cfg b hlen), binding_remove (h es hreg) hlt, hkey, if_pos rfl]

end Calls

/-! New roots -/

-- The root of the key is the one it had, or an id handed out since.
structure Issued (cfg : RegCfg) (key : UInt64) (b : Blobs) (top : Nat) (s : World ρ) : Prop where
  top_le : top ≤ s.top
  fresh : ∀ id, bindings cfg s.blobs key = some id →
    bindings cfg b key = some id ∨ top < id.toNat ∧ id.toNat ≤ s.top

theorem Rests.issued {s : World ρ} (hs : Rests b top r s) : Issued cfg key b top s :=
  ⟨hs.top.ge, fun id hid => .inl (by rwa [hs.blobs] at hid)⟩

theorem rootregCreate_issued (hH : ∀ w, H.holds w → finding.holds w) :
    Spec H (Rests b top r) (rootregCreate cfg key)
      (.exits (Issued cfg key b top) (Issued cfg key b top) (Issued cfg key b top)) := by
  refine (rrLoad_spec hH).bind ?_ (fun e s hs => hs.2.issued) fun _ hf => hf.elim
  intro es
  refine Spec.fact fun hreg => ?_
  refine Spec.ite (fun _ => Spec.fail fun s hs => hs.issued) fun hroom => ?_
  have halloc : Spec H (Rests b top r) blobDbAllocId
      ⟨fun id s => id = 0 ∧ Rests b top r s ∨ (top < id ∧ id < 2 ^ 64) ∧ Rests b id r s,
        fun _ _ => False, fun _ => False⟩ := by
    refine Spec.blobDbAllocId ?_ ?_
    . intro s gap hs hlt
      refine .inr ⟨⟨?_, hlt⟩, hs.blobs, rfl, hs.ram⟩
      rw [hs.top]
      omega
    . exact fun s hs => .inl ⟨rfl, hs.blobs, hs.top, hs.ram⟩
  refine halloc.bind ?_ (fun _ _ hf => hf.elim) fun _ hf => hf.elim
  intro id
  refine Spec.ite (fun h0 => Spec.fail ?_) fun h0 => ?_
  . rintro s (⟨_, hs⟩ | ⟨⟨hlt, _⟩, _⟩)
    . exact hs.issued
    . omega
  refine Spec.pre (P := fun s => (top < id ∧ id < 2 ^ 64) ∧ Rests b id r s) ?_
    fun s hs => hs.resolve_left fun h => h0 h.1
  refine Spec.fact fun hnew => ?_
  have hedit : ∀ {s : World ρ} {t : Turn}, Rests b id r s → Issued cfg key b top
      (s.edit blobDbRootId (some (rrImage (es ++ [⟨key, UInt64.ofNat id⟩]))) t) := by
    intro s t hs
    refine ⟨?_, fun id' hid' => ?_⟩
    . show top ≤ s.top
      rw [hs.top]
      omega
    . simp only [World.edit, hs.blobs] at hid'
      split at hid'
      . rw [bindings_of (registry_image cfg b (by simp; omega)), binding, List.find?_append] at hid'
        rw [bindings_of hreg, binding]
        cases hfind : es.find? (fun e => e.key == key) with
        | some e =>
          rw [hfind] at hid'
          exact .inl hid'
        | none =>
          rw [hfind] at hid'
          simp only [Option.none_or, List.find?_singleton, beq_self_eq_true, if_true,
            Option.map_some, Option.some.injEq] at hid'
          refine .inr ?_
          show top < id'.toNat ∧ id'.toNat ≤ s.top
          rw [← hid', UInt64.toNat_ofNat_of_lt' hnew.2, hs.top]
          exact ⟨hnew.1, le_rfl⟩
      . exact .inl hid'
  have hstore : Spec H (Rests b id r) (rrStore cfg (es ++ [⟨key, UInt64.ofNat id⟩]))
      (.exits (Issued cfg key b top) (Issued cfg key b top) (Issued cfg key b top)) :=
    Spec.blobDbUpdate (fun s hs _ => hedit hs) (fun s e landed hs _ => hedit hs)
      (fun s landed hs _ => hedit hs) fun s hs _ =>
        ⟨by rw [hs.top]; omega, fun id' hid' => .inl (by rwa [hs.blobs] at hid')⟩
  exact hstore.seq fun _ => Spec.ret fun _ hs => hs

theorem rootregGetOrCreate_issued (hH : ∀ w, H.holds w → finding.holds w) (key : UInt64) :
    Spec H (Rests b top r) (rootregGetOrCreate cfg key)
      (.exits (Issued cfg key b top) (Issued cfg key b top) (Issued cfg key b top)) := by
  refine (rootregGet_spec hH key).attempt.bind ?_ (fun _ _ hf => hf.elim) fun _ hf => hf.elim
  intro x
  cases x with
  | ok id => exact Spec.ret fun s hs => hs.2.2.issued
  | error e =>
    exact Spec.ite (fun _ => Spec.fail fun s hs => hs.2.issued)
      fun _ => (rootregCreate_issued hH).pre fun s hs => hs.2

theorem rrLoad_views : Views (rrLoad cfg : M ρ (List RrEntry)) :=
  (Views.readBlob _ _).bind fun _ => Views.ofExcept _

theorem rootregInit_client : Client cfg.toStoreCfg (rootregInit cfg : M ρ Unit) := by
  refine rrLoad_views.client.attempt.bind fun o => ?_
  cases o with
  | ok es => exact Client.ret _
  | error e =>
    refine Client.ite (Client.fail _) ((Client.readBlob _ _).attempt.bind fun o => ?_)
    cases o with
    | ok probe => exact Client.ite (Client.fail _) (Client.blobDbUpdate _ _)
    | error e => exact Client.fail _

theorem rootregGet_views (key : UInt64) : Views (rootregGet cfg key : M ρ UInt64) := by
  refine Views.ite (Views.fail _) (rrLoad_views.bind fun es => ?_)
  cases rrFind es key with
  | none => exact Views.fail _
  | some idx => exact Views.ret _

theorem rootregGetOrCreate_client (key : UInt64) :
    Client cfg.toStoreCfg (rootregGetOrCreate cfg key : M ρ UInt64) := by
  refine (rootregGet_views key).client.attempt.bind fun o => ?_
  cases o with
  | ok id => exact Client.ret _
  | error e =>
    exact Client.ite (Client.fail _) (Client.after rrLoad_views fun _ => Client.ite (Client.fail _)
      (Client.blobDbAllocId.bind fun _ => Client.ite (Client.fail _)
        ((Client.blobDbUpdate _ _).bind fun _ => Client.ret _)))

/-! The system -/

inductive RegOp where
  | init
  | get (key : UInt64)
  | getOrCreate (key : UInt64)
  | set (key rootId : UInt64)
  | unregister (key : UInt64)
  | powerOff
  deriving Repr, DecidableEq

-- A call together with what the store does while it runs.
structure RegCall where
  op : RegOp
  turns : List Turn := []
  allocs : List (Option Nat) := []
  reads : List (Option Errno) := []
  deriving Repr, DecidableEq

-- The root that a call answers with, if any.
abbrev RegReply := Out Errno (Option UInt64)

structure RegResult where
  reply : RegReply
  events : List Event

def RegOp.run (cfg : RegCfg) : RegOp → M ρ (Option UInt64)
  | .init => do
    rootregInit cfg
    pure none
  | .get key => do
    let id ← rootregGet cfg key
    pure (some id)
  | .getOrCreate key => do
    let id ← rootregGetOrCreate cfg key
    pure (some id)
  | .set key rootId => do
    rootregSet cfg key rootId
    pure none
  | .unregister key => do
    rootregUnregister cfg key
    pure none
  | .powerOff => Proc.cut

def enterReg (w : World ρ) (c : RegCall) : World ρ :=
  { w with
    turns := c.turns
    allocs := c.allocs
    reads := c.reads
    history := [] }

-- The registry keeps nothing in RAM, so that a loss of power only ends the call.
def regStep (cfg : RegCfg) (w : World ρ) (c : RegCall) : RegResult × World ρ :=
  let x := c.op.run cfg (enterReg w c)
  (⟨x.1, x.2.history⟩, x.2)

def runReg (cfg : RegCfg) (w : World ρ) : List RegCall → List RegResult × World ρ
  | [] => ([], w)
  | c :: cs =>
    let x := regStep cfg w c
    let rest := runReg cfg x.2 cs
    (x.1 :: rest.1, rest.2)

-- The key a call is about.
def RegOp.touches : RegOp → Option UInt64
  | .init => none
  | .get _ => none
  | .getOrCreate key => some key
  | .set key _ => some key
  | .unregister key => some key
  | .powerOff => none

def RegOp.drops : RegOp → Option UInt64
  | .unregister key => some key
  | _ => none

-- What the binding of a call's key is once it has returned.
def RegOp.Answered (cfg : RegCfg) (b : Blobs) : RegOp → Option UInt64 → Prop
  | .get key, id => bindings cfg b key = id
  | .getOrCreate key, id => bindings cfg b key = id
  | .set key rootId, _ => bindings cfg b key = some rootId
  | .unregister key, _ => bindings cfg b key = none
  | _, _ => True

theorem RegOp.run_spec (hH : ∀ w, H.holds w → finding.holds w) (h : Sound cfg b) (op : RegOp) :
    Spec H (Rests b top r) (op.run cfg)
      (callPost cfg op.touches op.drops b r fun a b' => op.Answered cfg b' a) := by
  cases op with
  | init =>
    exact (rootregInit_spec hH h).bind (fun _ => Spec.ret fun s hs => hs) (fun _ _ he => he)
      fun _ hc => hc
  | get key =>
    refine (rootregGet_spec hH key).bind (fun id => ?_) (fun e s hs => hs.2.failed h)
      fun _ hf => hf.elim
    refine Spec.ret ?_
    rintro s ⟨hid, hreg, hs⟩
    refine ⟨hs.wrote h, ?_⟩
    rw [hs.blobs]
    exact ⟨hreg, hid⟩
  | getOrCreate key =>
    exact (rootregGetOrCreate_spec hH h key).bind (fun _ => Spec.ret fun s hs => hs)
      (fun _ _ he => he) fun _ hc => hc
  | set key rootId =>
    exact (rootregSet_spec hH h key rootId).bind (fun _ => Spec.ret fun s hs => hs)
      (fun _ _ he => he) fun _ hc => hc
  | unregister key =>
    exact (rootregUnregister_spec hH h key).bind (fun _ => Spec.ret fun s hs => hs)
      (fun _ _ he => he) fun _ hc => hc
  | powerOff => exact Spec.cut fun s hs => hs.wrote h

variable {w : World ρ} {c : RegCall}

-- One call.
theorem regStep_holds (h : Sound cfg w.blobs) (hp : Finding (regStep cfg w c).1.events) :
    Moved cfg c.op.touches c.op.drops w.blobs (regStep cfg w c).2.blobs ∧
      (∀ a, (regStep cfg w c).1.reply = .ok a → registry cfg (regStep cfg w c).2.blobs ≠ none ∧
        c.op.Answered cfg (regStep cfg w c).2.blobs a) ∧
      ∀ e, (regStep cfg w c).1.reply = .err e →
        (regStep cfg w c).2.blobs blobDbRootId = w.blobs blobDbRootId ∨
          Landed (regStep cfg w c).1.events := by
  have hpost := RegOp.run_spec (H := finding) (fun _ hw => hw) h c.op (enterReg w c)
    (rests_self (enterReg w c))
  simp only [regStep] at hp ⊢
  generalize c.op.run cfg (enterReg w c) = x at hpost hp
  obtain ⟨o, s⟩ := x
  cases o with
  | ok a =>
    obtain ⟨hwrote, hreg, hans⟩ := hpost hp
    exact ⟨hwrote.moved, fun _ ha => by cases ha; exact ⟨hreg, hans⟩, nofun⟩
  | err e =>
    obtain ⟨hwrote, hsame⟩ := hpost hp
    exact ⟨hwrote.moved, nofun, fun _ _ => hsame⟩
  | cut => exact ⟨(hpost hp).moved, nofun, nofun⟩

theorem runReg_append (w : World ρ) (cs cs' : List RegCall) :
    runReg cfg w (cs ++ cs') =
      ((runReg cfg w cs).1 ++ (runReg cfg (runReg cfg w cs).2 cs').1,
        (runReg cfg (runReg cfg w cs).2 cs').2) := by
  induction cs generalizing w with
  | nil => rfl
  | cons c cs ih => simp only [List.cons_append, runReg, ih]

-- What is in id 1 after any calls.
structure Kept (cfg : RegCfg) (b b' : Blobs) : Prop where
  sound : Sound cfg b'
  valid : registry cfg b ≠ none → registry cfg b' ≠ none
  fresh : b blobDbRootId = some [] → b' blobDbRootId = some [] ∨ registry cfg b' ≠ none
  foreign : ∀ data, b blobDbRootId = some data → data ≠ [] → registry cfg b = none →
    b' blobDbRootId = some data

theorem Moved.kept_after {b₁ b₂ b₃ : Blobs} (hm : Moved cfg touched dropped b₁ b₂)
    (h : Kept cfg b₂ b₃) : Kept cfg b₁ b₃ where
  sound := h.sound
  valid hb := h.valid (hm.valid hb)
  fresh hb := by
    rcases hm.fresh hb with hempty | hreg
    . exact h.fresh hempty
    . exact .inr (h.valid hreg)
  foreign data hdata hne hnone := by
    have hdata₂ := hm.foreign data hdata hne hnone
    refine h.foreign data hdata₂ hne ?_
    rw [registry, hdata₂]
    rwa [registry, hdata] at hnone

theorem runReg_kept (cs : List RegCall) (h : Sound cfg w.blobs)
    (hp : ∀ x ∈ (runReg cfg w cs).1, Finding x.events) :
    Kept cfg w.blobs (runReg cfg w cs).2.blobs := by
  induction cs generalizing w with
  | nil => exact ⟨h, id, .inl, fun _ hdata _ _ => hdata⟩
  | cons c cs ih =>
    obtain ⟨hmoved, _, _⟩ := regStep_holds h (hp _ List.mem_cons_self)
    exact hmoved.kept_after (ih hmoved.sound fun x hx => hp x (List.mem_cons_of_mem _ hx))

-- The call has removed the entry of the key, or may have.
def Unregisters (key : UInt64) (c : RegCall) (x : RegResult) : Prop :=
  c.op = .unregister key ∧ ((∀ e, x.reply ≠ .err e) ∨ Landed x.events)

-- A registered key stays registered with its root until it is unregistered.
theorem runReg_bound (cs : List RegCall) (h : Sound cfg w.blobs)
    (hp : ∀ x ∈ (runReg cfg w cs).1, Finding x.events) {id : UInt64}
    (hb : bindings cfg w.blobs key = some id)
    (hno : ∀ x ∈ cs.zip (runReg cfg w cs).1, ¬ Unregisters key x.1 x.2) :
    bindings cfg (runReg cfg w cs).2.blobs key = some id := by
  induction cs generalizing w with
  | nil => exact hb
  | cons c cs ih =>
    obtain ⟨hmoved, _, herr⟩ := regStep_holds h (hp _ List.mem_cons_self)
    refine ih hmoved.sound (fun x hx => hp x (List.mem_cons_of_mem _ hx)) ?_
      fun x hx => hno x (List.mem_cons_of_mem _ hx)
    have hnot := hno _ List.mem_cons_self
    by_cases hop : c.op = .unregister key
    . -- it has failed, and so has changed nothing
      have hfailed : ∃ e, (regStep cfg w c).1.reply = .err e := by
        by_contra hne
        exact hnot ⟨hop, .inl fun e he => hne ⟨e, he⟩⟩
      obtain ⟨e, he⟩ := hfailed
      have hsame := (herr e he).resolve_right fun hl => hnot ⟨hop, .inr hl⟩
      rw [bindings, registry, hsame]
      exact hb
    . refine hmoved.kept key id ?_ hb
      intro hdrops
      cases hc : c.op with
      | unregister k =>
        rw [hc] at hdrops hop
        cases hdrops
        exact hop rfl
      | _ =>
        rw [hc] at hdrops
        cases hdrops

-- After any calls, one more: id 1 of a formatted store is empty or a registry with distinct keys, a
-- registered key is answered with its root until it is unregistered, only the key of the call is
-- touched, a call that fails touches none, and what is no registry stays in its place.
theorem rootreg_keeps_bindings (h : Sound cfg w.blobs) (cs : List RegCall) (c : RegCall)
    (hp : ∀ x ∈ (runReg cfg w (cs ++ [c])).1, Finding x.events) :
    (w.blobs blobDbRootId = some [] →
      (regStep cfg (runReg cfg w cs).2 c).2.blobs blobDbRootId = some [] ∨
        registry cfg (regStep cfg (runReg cfg w cs).2 c).2.blobs ≠ none) ∧
    (registry cfg (runReg cfg w cs).2.blobs ≠ none →
      registry cfg (regStep cfg (runReg cfg w cs).2 c).2.blobs ≠ none) ∧
    (∀ es, registry cfg (regStep cfg (runReg cfg w cs).2 c).2.blobs = some es →
      (es.map RrEntry.key).Nodup) ∧
    (∀ key a, c.op = .getOrCreate key → (regStep cfg (runReg cfg w cs).2 c).1.reply = .ok a →
      bindings cfg (regStep cfg (runReg cfg w cs).2 c).2.blobs key = a ∧
        ∀ before between id, cs = before ++ between →
          bindings cfg (runReg cfg w before).2.blobs key = some id →
          (∀ x ∈ between.zip (runReg cfg (runReg cfg w before).2 between).1,
            ¬ Unregisters key x.1 x.2) → a = some id) ∧
    (∀ key, c.op.touches ≠ some key →
      bindings cfg (regStep cfg (runReg cfg w cs).2 c).2.blobs key =
        bindings cfg (runReg cfg w cs).2.blobs key) ∧
    (∀ e, (regStep cfg (runReg cfg w cs).2 c).1.reply = .err e →
      ¬ Landed (regStep cfg (runReg cfg w cs).2 c).1.events →
      bindings cfg (regStep cfg (runReg cfg w cs).2 c).2.blobs =
        bindings cfg (runReg cfg w cs).2.blobs) ∧
    ∀ data, (runReg cfg w cs).2.blobs blobDbRootId = some data → data ≠ [] →
      registry cfg (runReg cfg w cs).2.blobs = none →
      (regStep cfg (runReg cfg w cs).2 c).2.blobs blobDbRootId = some data := by
  rw [runReg_append] at hp
  have hbefore : ∀ x ∈ (runReg cfg w cs).1, Finding x.events :=
    fun x hx => hp x (List.mem_append_left _ hx)
  have hlast : Finding (regStep cfg (runReg cfg w cs).2 c).1.events :=
    hp _ (List.mem_append_right _ List.mem_cons_self)
  have hkept := runReg_kept cs h hbefore
  obtain ⟨hmoved, hok, herr⟩ := regStep_holds hkept.sound hlast
  refine ⟨?_, hmoved.valid, hmoved.sound, ?_, hmoved.own, ?_, hmoved.foreign⟩
  . intro hempty
    rcases hkept.fresh hempty with hstill | hreg
    . exact hmoved.fresh hstill
    . exact .inr (hmoved.valid hreg)
  . intro key a hop ha
    have hans : bindings cfg (regStep cfg (runReg cfg w cs).2 c).2.blobs key = a := by
      have := (hok a ha).2
      rwa [hop] at this
    refine ⟨hans, ?_⟩
    rintro before between id rfl hid hno
    rw [runReg_append] at hbefore hmoved hans
    have hsound := (runReg_kept before h fun x hx => hbefore x (List.mem_append_left _ hx)).sound
    have hbound := runReg_bound between hsound (fun x hx => hbefore x (List.mem_append_right _ hx))
      hid hno
    have hstays := hmoved.kept key id (by rw [hop]; exact nofun) hbound
    exact hans.symm.trans hstays
  . intro e he hno
    have hsame := (herr e he).resolve_right hno
    funext key
    simp only [bindings, registry, hsame]

-- Room for two roots.
def twoRoots : RegCfg where
  maxPayload := 64
  maxObject := 64
  partition := 4096
  maxRoots := 2
  roots_le := by decide
  image_le := by decide

-- A store as format leaves it.
def formatted : World Unit := ⟨fun id => if id = 1 then some [] else none, 1, 0, [], [], [], (), []⟩

-- A registry that gets two keys and loses one of them, with a set that fails and one that is cut.
def twoKeys : List RegCall :=
  [⟨.init, [], [], []⟩, ⟨.getOrCreate 5, [], [], []⟩, ⟨.set 7 40, [.error Errno.EIO false], [], []⟩,
    ⟨.set 7 40, [.cut true], [], []⟩, ⟨.unregister 5, [.error Errno.EIO false], [], []⟩,
    ⟨.set 9 41, [], [], []⟩, ⟨.unregister 7, [], [], []⟩]

theorem rootreg_keeps_two_keys :
    (runReg twoRoots formatted (twoKeys ++ [⟨.getOrCreate 5, [], [], []⟩])).1.map RegResult.reply =
        [.ok none, .ok (some 2), .err Errno.EIO, .cut, .err Errno.EIO, .err Errno.ENOSPC, .ok none,
          .ok (some 2)] ∧
      bindings twoRoots (regStep twoRoots (runReg twoRoots formatted twoKeys).2
          ⟨.getOrCreate 5, [], [], []⟩).2.blobs 7 =
        bindings twoRoots (runReg twoRoots formatted twoKeys).2.blobs 7 := by
  refine ⟨by decide +kernel, ?_⟩
  have hsound : Sound twoRoots formatted.blobs := nofun
  exact (rootreg_keeps_bindings hsound twoKeys _ (by decide +kernel)).2.2.2.2.1 7 (by decide)

end KeyValueDb.Rootreg
