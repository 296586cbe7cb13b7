import KeyValueDb.Containers.KvhashUnfailing
import KeyValueDb.Registry.RootregRuns

/-!
The store and the registry where nothing fails but the power: each call does what it is asked to, or is
cut before or after that.
-/

namespace KeyValueDb.Containers

variable {ρ α : Type} {cfg : StoreCfg} {cap top id : Nat} {b : Blobs} {H : Hypothesis (World ρ)}

-- Nothing has failed so far, and these are the blobs.
abbrev CalmAt (cfg : StoreCfg) (cap top : Nat) (b : Blobs) (s : World ρ) : Prop :=
  s.blobs = b ∧ Unfailing cfg cap top s

theorem Unfailing.readDone {w : World ρ} (h : Unfailing cfg cap top w) : w.readDone = w := by
  have hreads := h.reads
  simp only [World.readDone, hreads, List.tail_nil]
  rw [← hreads]

-- A read says what there is.
theorem readBlob_calm (id : Nat) (f : Blobs → Out Errno α) (hf : f b ≠ .cut) :
    Spec H (CalmAt cfg cap top b) (readBlob id f)
      ⟨fun a s => f b = .ok a ∧ CalmAt cfg cap top b s, fun e s => f b = .err e ∧ CalmAt cfg cap top b s,
        fun _ => False⟩ := by
  rintro s ⟨rfl, hu⟩ _
  have hrun : readBlob id f s = (f s.blobs, s) := by
    simp only [readBlob, hu.reads, List.headD_nil, hu.readDone]
  rw [hrun]
  cases ho : f s.blobs with
  | ok a => exact ⟨rfl, rfl, hu⟩
  | err e => exact ⟨rfl, rfl, hu⟩
  | cut => exact absurd ho hf

theorem blobDbGet_calm {data : List UInt8} {outSz : Nat} (hb : b id = some data)
    (hlen : data.length ≤ outSz) :
    Spec H (CalmAt cfg cap top b) (blobDbGet id outSz)
      ⟨fun got s => got = data ∧ CalmAt cfg cap top b s, fun _ _ => False, fun _ => False⟩ := by
  unfold blobDbGet
  refine (readBlob_calm id _ ?_).conseq (fun _ h => h) ?_ ?_ fun _ h => h
  . simp only [hb, if_pos hlen]
    rintro ⟨⟩
  . rintro got s ⟨hgot, hs⟩
    simp only [hb, if_pos hlen] at hgot
    cases hgot
    exact ⟨rfl, hs⟩
  . rintro e s ⟨he, _⟩
    simp only [hb, if_pos hlen] at he
    cases he

theorem blobDbGet_calm_none {outSz : Nat} (hb : b id = none) :
    Spec H (CalmAt cfg cap top b) (blobDbGet id outSz)
      (.stops fun e s => e = Errno.ENOENT ∧ CalmAt cfg cap top b s) := by
  unfold blobDbGet
  refine (readBlob_calm id _ ?_).conseq (fun _ h => h) ?_ ?_ fun _ h => h
  . rw [hb]
    rintro ⟨⟩
  . rintro got s ⟨hgot, _⟩
    rw [hb] at hgot
    cases hgot
  . rintro e s ⟨he, hs⟩
    rw [hb] at he
    cases he
    exact ⟨rfl, hs⟩

-- A change is made, or power is lost before or after it.
def altered (cfg : StoreCfg) (cap top : Nat) (b b' : Blobs) : Post (World ρ) Errno Unit where
  ok _ := CalmAt cfg cap top b'
  err _ _ := False
  cut s := CalmAt cfg cap top b s ∨ CalmAt cfg cap top b' s

theorem edit_altered {data : Option (List UInt8)} {s : World ρ} (hs : CalmAt cfg cap top b s)
    (hle : (data.getD []).length ≤ b.size id) :
    (altered cfg cap top b (Function.update b id data)).Holds
      (s.nextTurn.outcome, s.edit id data s.nextTurn) := by
  obtain ⟨rfl, hu⟩ := hs
  have hpow := hu.nextTurn
  have hdone := hu.edit hpow hle
  cases ht : s.nextTurn with
  | done =>
    rw [ht] at hdone
    exact ⟨s.edit_blobs id data rfl, hdone⟩
  | error e landed => exact absurd ht (hpow e landed)
  | cut landed =>
    rw [ht] at hdone
    cases landed with
    | true => exact .inr ⟨s.edit_blobs id data rfl, hdone⟩
    | false => exact .inl ⟨rfl, hdone⟩

theorem blobDbDelete_calm (hb : b id ≠ none) :
    Spec H (CalmAt cfg cap top b) (blobDbDelete id)
      (altered cfg cap top b (Function.update b id none)) := by
  intro s hs _
  rcases blobDbDelete_met s id with ⟨hnone, _⟩ | ⟨_, hrun⟩
  . rw [hs.1] at hnone
    exact absurd hnone hb
  . rw [hrun]
    exact edit_altered hs (Nat.zero_le _)

theorem blobDbDelete_calm_none (hb : b id = none) :
    Spec H (CalmAt cfg cap top b) (blobDbDelete id)
      (.stops fun e s => e = Errno.ENOENT ∧ CalmAt cfg cap top b s) := by
  intro s hs _
  rcases blobDbDelete_met s id with ⟨_, hrun⟩ | ⟨hsome, _⟩
  . rw [hrun]
    exact ⟨rfl, hs⟩
  . rw [hs.1] at hsome
    exact absurd hb hsome

-- There is room for a blob that gets no longer.
theorem blobDbUpdate_calm {payload : List UInt8} (hid : id ≠ 0) (htop : id ≤ top)
    (hmax : payload.length ≤ cfg.maxObject) (hle : payload.length ≤ b.size id) :
    Spec H (CalmAt cfg cap top b) (blobDbUpdate cfg id payload)
      (altered cfg cap top b (Function.update b id (some payload))) := by
  intro s hs _
  have hids := hs.2.ids
  have hused := hs.2.tallied.1
  have hsize : s.blobs.size id = b.size id := by rw [hs.1]
  rcases blobDbUpdate_met cfg s id payload with ⟨hbad, _⟩ | ⟨_, ⟨_, hrun⟩ | ⟨hfull, _⟩⟩
  . omega
  . rw [hrun]
    exact edit_altered hs hle
  . omega

end KeyValueDb.Containers

namespace KeyValueDb.Rootreg

open Containers

variable {ρ : Type} {cfg : RegCfg} {cap top : Nat} {b : Blobs} {H : Hypothesis (World ρ)}
  {es : List RrEntry} {key : UInt64} {base : StoreCfg}

theorem registry_data (hreg : registry cfg b = some es) :
    ∃ data, b blobDbRootId = some data ∧ rrCheck cfg data = .ok es := by
  simp only [registry] at hreg
  cases hb : b blobDbRootId with
  | none => simp [hb] at hreg
  | some data =>
    simp only [hb] at hreg
    cases hc : rrCheck cfg data with
    | error e => simp [hc, Except.toOption] at hreg
    | ok l =>
      simp only [hc, Except.toOption, Option.some.injEq] at hreg
      exact ⟨data, rfl, by rw [hc, hreg]⟩

theorem rrLoad_calm (hreg : registry cfg b = some es) :
    Spec H (CalmAt base cap top b) (rrLoad cfg)
      ⟨fun l s => l = es ∧ CalmAt base cap top b s, fun _ _ => False, fun _ => False⟩ := by
  obtain ⟨data, hdata, hcheck⟩ := registry_data hreg
  have hlen := rrCheck_length hcheck
  have hfits : data.length ≤ cfg.imageMax := by
    rw [RegCfg.imageMax]
    omega
  refine (blobDbGet_calm hdata hfits).bind (fun got => Spec.fact ?_) (fun _ _ h => h.elim) fun _ h => h
  rintro rfl
  rw [hcheck]
  exact Spec.ret fun s hs => ⟨rfl, hs⟩

theorem rootregInit_calm (hreg : registry cfg b = some es) :
    Spec H (CalmAt base cap top b) (rootregInit cfg)
      ⟨fun _ => CalmAt base cap top b, fun _ _ => False, fun _ => False⟩ := by
  refine (rrLoad_calm hreg).attempt.bind (fun r => ?_) (fun _ _ h => h.elim) fun _ h => h
  cases r with
  | ok l => exact Spec.ret fun s hs => hs.2
  | error e => exact fun s hs _ => hs.elim

theorem rootregGet_calm {id : UInt64} (hkey : key ≠ 0) (hid : bindings cfg b key = some id) :
    Spec H (CalmAt base cap top b) (rootregGet cfg key)
      ⟨fun got s => got = id ∧ CalmAt base cap top b s, fun _ _ => False, fun _ => False⟩ := by
  cases hreg : registry cfg b with
  | none => simp [bindings, hreg] at hid
  | some es =>
    rw [bindings_of hreg] at hid
    refine Spec.ite (fun h0 => absurd h0 hkey) fun _ => ?_
    refine (rrLoad_calm hreg).bind (fun l => Spec.fact ?_) (fun _ _ h => h.elim) fun _ h => h
    rintro rfl
    cases hfind : rrFind l key with
    | none =>
      rw [rrFind_none.mp hfind] at hid
      cases hid
    | some idx =>
      have hroot := (rrFind_some hfind).2.2
      rw [hid, Option.some.injEq] at hroot
      exact Spec.ret fun s hs => ⟨hroot.symm, hs⟩

theorem rootregGet_calm_none (hkey : key ≠ 0) (hreg : registry cfg b = some es)
    (hid : bindings cfg b key = none) :
    Spec H (CalmAt base cap top b) (rootregGet cfg key)
      (.stops fun e s => e = Errno.ENOENT ∧ CalmAt base cap top b s) := by
  rw [bindings_of hreg] at hid
  refine Spec.ite (fun h0 => absurd h0 hkey) fun _ => ?_
  refine (rrLoad_calm hreg).bind (fun l => Spec.fact ?_) (fun _ _ h => h.elim) fun _ h => h.elim
  rintro rfl
  rw [rrFind_none.mpr hid]
  exact Spec.fail fun s hs => ⟨rfl, hs⟩

-- The entry of the key is gone from the registry, and nothing else has changed.
structure Unlisted (cfg : RegCfg) (key : UInt64) (b b' : Blobs) : Prop where
  sound : Sound cfg b'
  valid : registry cfg b' ≠ none
  gone : bindings cfg b' key = none
  own : ∀ k, k ≠ key → bindings cfg b' k = bindings cfg b k
  frame : ∀ id, id ≠ blobDbRootId → b' id = b id

theorem rootregUnregister_calm {id : UInt64} (hmax : cfg.maxPayload ≤ cfg.maxObject)
    (htop : blobDbRootId ≤ top) (hsound : Sound cfg b) (hkey : key ≠ 0)
    (hid : bindings cfg b key = some id) :
    ∃ b', Unlisted cfg key b b' ∧ Spec H (CalmAt cfg.toStoreCfg cap top b) (rootregUnregister cfg key)
      (altered cfg.toStoreCfg cap top b b') := by
  cases hreg : registry cfg b with
  | none => simp [bindings, hreg] at hid
  | some es =>
    rw [bindings_of hreg] at hid
    cases hfind : rrFind es key with
    | none =>
      rw [rrFind_none.mp hfind] at hid
      cases hid
    | some idx =>
      obtain ⟨hlt, hidx, -⟩ := rrFind_some hfind
      have hlen := registry_length hreg
      have hshort := rrRemove_length es idx
      have hfew : (rrRemove es idx).length ≤ cfg.maxRoots := by omega
      have hremove := binding_remove (hsound es hreg) hlt
      rw [hidx] at hremove
      have hreg' := registry_image cfg b hfew
      refine ⟨Function.update b blobDbRootId (some (rrImage (rrRemove es idx))), ⟨?_, ?_, ?_, ?_, ?_⟩, ?_⟩
      . intro l hl
        rw [hreg'] at hl
        cases hl
        exact (hsound es hreg).remove hlt
      . rw [hreg']
        rintro ⟨⟩
      . rw [bindings_of hreg', hremove, if_pos rfl]
      . intro k hk
        rw [bindings_of hreg', bindings_of hreg, hremove, if_neg hk]
      . exact fun i hi => Function.update_of_ne hi _ _
      . refine Spec.ite (fun h0 => absurd h0 hkey) fun _ => ?_
        refine (rrLoad_calm hreg).bind (fun l => Spec.fact ?_) (fun _ _ h => h.elim) fun _ h => h.elim
        rintro rfl
        rw [hfind]
        obtain ⟨data, hdata, hcheck⟩ := registry_data hreg
        have hsize := (rrCheck_length hcheck).2
        have himage := rrImage_length (rrRemove l idx)
        have hle := cfg.image_le
        have hb : b.size blobDbRootId = data.length := by rw [Blobs.size, hdata]; rfl
        exact blobDbUpdate_calm (by decide) htop (by omega) (by omega)

end KeyValueDb.Rootreg
