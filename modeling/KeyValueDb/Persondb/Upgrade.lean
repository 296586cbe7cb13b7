import KeyValueDb.Persondb.RecordCodec
import KeyValueDb.Persondb.Teardown

/-!
Opening a store that an older or a newer build has left: the tables that a newer one could build again
are destroyed, then the superblock is rewritten without them. Power cuts only put that off.
-/

namespace KeyValueDb.Containers

variable {ρ : Type} {cfg : StoreCfg} {cap top id : Nat} {b : Blobs} {H : Hypothesis (World ρ)} {w : World ρ}

theorem Unfailing.widen (h : Unfailing cfg cap top w) : Unfailing cfg cfg.partition top w :=
  ⟨h.reads, h.turns, h.tallied, h.tallied.1, h.ids, h.quiet⟩

-- A change that there is room for.
theorem Unfailing.edit_roomy (h : Unfailing cfg cap top w) {data : Option (List UInt8)} {t : Turn}
    (ht : t.Powered) (hfits : w.used + (data.getD []).length ≤ cfg.partition + w.blobs.size id) :
    Unfailing cfg cfg.partition top (w.edit id data t) := by
  have htally : Tallied cfg (w.edit id data t).blobs (w.edit id data t).used := by
    simp only [World.edit]
    split
    . exact h.tallied.update hfits
    . exact h.tallied
  refine ⟨h.reads, fun u hu => h.turns u (List.mem_of_mem_tail hu), htally, htally.1, h.ids, ?_⟩
  rintro ⟨ev, hev, hf⟩
  rcases List.mem_cons.mp hev with rfl | hev
  . obtain ⟨e, landed, he⟩ := hf
    exact ht e landed he
  . exact h.quiet ⟨ev, hev, hf⟩

-- As long as all else leaves `cap` of the partition, there is room for one longer blob.
theorem blobDbUpdate_roomy {payload : List UInt8} (hid : id ≠ 0) (htop : id ≤ top)
    (hmax : payload.length ≤ cfg.maxObject) (hroom : cap + payload.length ≤ cfg.partition) :
    Spec H (CalmAt cfg cap top b) (blobDbUpdate cfg id payload)
      ⟨fun _ => CalmAt cfg cfg.partition top (Function.update b id (some payload)), fun _ _ => False,
        fun s => CalmAt cfg cap top b s ∨
          CalmAt cfg cfg.partition top (Function.update b id (some payload)) s⟩ := by
  rintro s ⟨rfl, hu⟩ _
  have hids := hu.ids
  have hused := hu.room
  rcases blobDbUpdate_met cfg s id payload with ⟨hbad, _⟩ | ⟨_, ⟨hfits, hrun⟩ | ⟨hfull, _⟩⟩
  . omega
  . rw [hrun]
    have hpow := hu.nextTurn
    have hdone := @Unfailing.edit_roomy _ _ _ _ _ _ hu (some payload) _ hpow hfits
    cases ht : s.nextTurn with
    | done =>
      rw [ht] at hdone
      exact ⟨s.edit_blobs id _ rfl, hdone⟩
    | error e landed => exact absurd ht (hpow e landed)
    | cut landed =>
      rw [ht] at hdone hpow
      cases landed with
      | true => exact .inr ⟨s.edit_blobs id _ rfl, hdone⟩
      | false =>
        refine .inl ⟨rfl, hu.reads, fun u hmem => hu.turns u (List.mem_of_mem_tail hmem), hu.tallied,
          hu.room, hu.ids, hdone.quiet⟩
  . omega

end KeyValueDb.Containers

namespace KeyValueDb.Persondb

open Containers Kvdb Rootreg Cbor

variable {cfg : KvdbCfg} {Z : Zcbor} {p : Parts} {db : Db} {b0 b b' : Blobs} {cap top : Nat}
  {root : Nat} {H : Hypothesis (World KvRam)} {t : SbTable} {ts : List SbTable} {sb : Superblock}

/-! The directory without what is dropped -/

-- The tables that go.
def drops (sb : Superblock) : List SbTable := sb.tables.filter dropped

def keptSb (sb : Superblock) : Superblock :=
  { sb with
    version := superblockVersion
    tables := sb.tables.filter fun t => !dropped t }

theorem tablesDrop_eq (cfg : KvdbCfg) (ts : List SbTable) :
    tablesDrop cfg ts = destroyAll cfg (ts.filter dropped) >>= fun _ =>
      pure (ts.filter fun t => !dropped t) := by
  induction ts with
  | nil => rfl
  | cons t ts ih =>
    rw [tablesDrop]
    cases ht : dropped t with
    | true =>
      rw [if_pos rfl, ih, List.filter_cons_of_pos ht, List.filter_cons_of_neg (by simp [ht]),
        destroyAll, Proc.bind_assoc]
    | false =>
      rw [if_neg Bool.false_ne_true, ih, List.filter_cons_of_neg (by simp [ht]),
        List.filter_cons_of_pos (by simp [ht]), Proc.bind_assoc]
      rfl

theorem dropped_skipped (ht : dropped t = true) (found : Nat × Nat) :
    resolveRoots (t :: ts) found = resolveRoots ts found := by
  simp only [dropped, Bool.and_eq_true, Bool.not_eq_true', ownTable, Bool.or_eq_false_iff,
    beq_eq_false_iff_ne, beq_iff_eq] at ht
  obtain ⟨⟨hpeople, hcred⟩, hcls⟩ := ht
  obtain ⟨people, cred⟩ := found
  rw [resolveRoots, if_neg hpeople, if_neg hcred, if_pos (.inr hcls)]

theorem resolveRoots_kept {found r : Nat × Nat} (h : resolveRoots ts found = .ok r) :
    resolveRoots (ts.filter fun t => !dropped t) found = .ok r := by
  induction ts generalizing found with
  | nil => exact h
  | cons t ts ih =>
    cases ht : dropped t with
    | true =>
      rw [dropped_skipped ht] at h
      rw [List.filter_cons_of_neg (by simp [ht])]
      exact ih h
    | false =>
      rw [List.filter_cons_of_pos (by simp [ht])]
      obtain ⟨people, cred⟩ := found
      rw [resolveRoots] at h ⊢
      split at h
      . next hid =>
        rw [if_pos hid]
        split at h
        . cases h
        . next hschema =>
          rw [if_neg hschema]
          exact ih h
      . next hid =>
        rw [if_neg hid]
        split at h
        . next hcred =>
          rw [if_pos hcred]
          split at h
          . cases h
          . next hschema =>
            rw [if_neg hschema]
            exact ih h
        . next hcred =>
          rw [if_neg hcred]
          split at h
          . next hcls =>
            rw [if_pos hcls]
            exact ih h
          . cases h

theorem kept_none (ts : List SbTable) : (ts.filter fun t => !dropped t).any dropped = false := by
  rw [List.any_eq_false]
  intro t ht
  simpa using (List.mem_filter.mp ht).2

theorem tablesResolve_kept {sbId : UInt64} (h : tablesResolve sbId ts = .ok db) :
    tablesResolve sbId (ts.filter fun t => !dropped t) = .ok db := by
  rw [tablesResolve] at h
  split at h
  . cases h
  . next people cred hr =>
    rw [tablesResolve, resolveRoots_kept hr]
    split at h
    . cases h
    . next hroots =>
      split at h
      . cases h
      . cases h
        have hnone : ((ts.filter fun t => !dropped t).any fun t =>
            dropped t && (t.root.toNat == people || t.root.toNat == cred || t.root == sbId)) = false := by
          rw [List.any_eq_false]
          intro t ht
          have hno := (List.mem_filter.mp ht).2
          simp only [Bool.not_eq_true'] at hno
          simp [hno]
        simp only
        rw [if_neg hroots, hnone]
        rfl

-- A directory that this build would write as it is.
def Current (sb : Superblock) : Prop := sb.version = superblockVersion ∧ sb.tables.any dropped = false

instance (sb : Superblock) : Decidable (Current sb) := inferInstanceAs (Decidable (_ ∧ _))

theorem keptSb_current (sb : Superblock) : Current (keptSb sb) := ⟨rfl, kept_none _⟩

theorem Current.kept (h : Current sb) : keptSb sb = sb := by
  have htables : (sb.tables.filter fun t => !dropped t) = sb.tables := by
    rw [List.filter_eq_self]
    intro t ht
    have hno := List.any_eq_false.mp h.2 t ht
    simpa using hno
  rw [keptSb, htables, ← h.1]

theorem Current.no_drops (h : Current sb) : drops sb = [] := by
  rw [drops, List.filter_eq_nil_iff]
  exact List.any_eq_false.mp h.2

theorem Sorted.ascending {ts : List SbTable} (h : Sorted ts) : Ascending ts := by
  induction ts with
  | nil => trivial
  | cons t ts ih =>
    obtain ⟨hlater, hrest⟩ := List.pairwise_cons.mp h
    cases ts with
    | nil => trivial
    | cons u ts => exact ⟨hlater u List.mem_cons_self, ih hrest⟩

/-! A store with tables that are to go -/

-- A map of this build, out of the way of the superblock and of what goes.
def Staying (cfg : KvdbCfg) (p : Parts) (b : Blobs) (top root : Nat) : Prop :=
  ∃ own, MapWhole cfg.toKvCfg root own b top ∧
    ∀ id, own id → ¬ Owned (drops p.sb) p.own id ∧ id ≠ p.sbId.toNat

structure Upgradable (cfg : KvdbCfg) (Z : Zcbor) (p : Parts) (db : Db) (b : Blobs) (top : Nat) : Prop
    extends Seated cfg Z p b top where
  sb_pos : p.sbId.toNat ≠ 0
  resolves : tablesResolve p.sbId p.sb.tables = .ok db
  people : Staying cfg p b top db.peopleRoot
  cred : Staying cfg p b top db.credRoot
  maps : ∀ t ∈ drops p.sb, MapWhole cfg.toKvCfg t.root.toNat (p.own t.root) b top
  apart : Apart (drops p.sb) p.own
  sb_alone : ¬ Owned (drops p.sb) p.own p.sbId.toNat
  reg_alone : ¬ Owned (drops p.sb) p.own blobDbRootId

-- The tables are gone, and the superblock lists the others.
structure Settled (Z : Zcbor) (p : Parts) (b0 b : Blobs) : Prop where
  gone : ∀ id, Owned (drops p.sb) p.own id → b id = none
  stored : ∃ bytes, b p.sbId.toNat = some bytes ∧ bytes ≠ [] ∧ bytes.length ≤ superblockCborMax ∧
    superblockCborDecode Z bytes = .ok (keptSb p.sb)
  frame : ∀ id, ¬ Owned (drops p.sb) p.own id → id ≠ p.sbId.toNat → b id = b0 id

-- The tables are on their way.
def Leaving (cfg : KvdbCfg) (p : Parts) (b0 : Blobs) (top : Nat) (b : Blobs) : Prop :=
  Going cfg (drops p.sb) p.own b0 top b

theorem Staying.later (h : Staying cfg p b0 top root)
    (hframe : ∀ id, ¬ Owned (drops p.sb) p.own id → id ≠ p.sbId.toNat → b id = b0 id) :
    Staying cfg p b top root := by
  obtain ⟨own, hmap, hown⟩ := h
  exact ⟨own, hmap.congr fun id hid => hframe id (hown id hid).1 (hown id hid).2, hown⟩

theorem mapGone_staying (h : Staying cfg p b top root) :
    Spec H (CalmAt cfg.toStoreCfg cap top b) (mapGone cfg root)
      ⟨fun gone s => gone = false ∧ CalmAt cfg.toStoreCfg cap top b s, fun _ _ => False, fun _ => False⟩ := by
  obtain ⟨own, hmap, -⟩ := h
  refine (kvhashStat_whole hmap).attempt.bind (fun r => ?_) (fun _ _ hf => hf) fun _ hf => hf
  cases r with
  | ok info => exact Spec.ret fun s hs => ⟨rfl, hs⟩
  | error e => exact fun s hs _ => hs.elim

-- Nothing decodes from an empty blob.
theorem decodes_bound (hZ : Canonical Z) {bytes : List UInt8}
    (h : superblockCborDecode Z bytes = .ok sb) : bytes ≠ [] := by
  rintro rfl
  have hscan : Z.scan [] = [] := by
    have hput := hZ.put [] rfl (fun _ ht => by cases ht) (by decide)
    have hback := Z.scan_put [] rfl (fun _ ht => by cases ht) (by decide)
    rwa [hput] at hback
  rw [superblockCborDecode, hscan] at h
  cases h

-- What is kept can be written.
theorem keptSb_encodes (hZ : Canonical Z) (hdir : Sorted sb.tables ∧ sb.tables.length ≤ sbTablesMax) :
    ∃ bytes, superblockCborEncode Z (keptSb sb) superblockCborMax = .ok bytes ∧
      superblockCborDecode Z bytes = .ok (keptSb sb) ∧ bytes ≠ [] ∧ bytes.length ≤ superblockCborMax := by
  have hasc : Ascending (keptSb sb).tables := Sorted.ascending (List.Pairwise.filter _ hdir.1)
  have hlen : (keptSb sb).tables.length ≤ sbTablesMax := le_trans (List.length_filter_le _ _) hdir.2
  obtain ⟨bytes, henc, hdec⟩ := superblockCborEncode_fits hZ hlen hasc
  refine ⟨bytes, henc, hdec, decodes_bound hZ hdec, ?_⟩
  rw [superblockCborEncode] at henc
  split at henc
  . cases henc
  . rw [encodeToks] at henc
    split at henc
    . cases henc
    . next hfits =>
      cases henc
      exact not_lt.mp hfits

-- What is told where an open comes through.
def handleOf (p : Parts) (db : Db) : Handle := ⟨p.sbId, keptSb p.sb, db⟩

-- How an open ends. Before the new superblock is written, all else leaves `cap` bytes.
def upgradePost (cfg : KvdbCfg) (Z : Zcbor) (p : Parts) (db : Db) (b0 : Blobs) (cap top : Nat) :
    Post (World KvRam) Errno Handle where
  ok h s := h = handleOf p db ∧ Unfailing cfg.toStoreCfg cfg.partition top s ∧ Settled Z p b0 s.blobs
  err _ _ := False
  cut s := Unfailing cfg.toStoreCfg cap top s ∧ Leaving cfg p b0 top s.blobs ∨
    Unfailing cfg.toStoreCfg cfg.partition top s ∧ Settled Z p b0 s.blobs

section

variable (hsb : superblockCborMax ≤ cfg.maxObject) (hZ : Canonical Z) (hup : Upgradable cfg Z p db b0 top)
  (hroom : cap + superblockCborMax ≤ cfg.partition)

include hsb hZ hup hroom

-- With the tables gone, the superblock is rewritten.
theorem commitKept_spec (h : Leaving cfg p b0 top b)
    (hgone : ∀ id, Owned (drops p.sb) p.own id → b id = none) :
    Spec H (CalmAt cfg.toStoreCfg cap top b) (sbCommit cfg Z p.sbId (keptSb p.sb))
      ⟨fun _ s => Unfailing cfg.toStoreCfg cfg.partition top s ∧ Settled Z p b0 s.blobs, fun _ _ => False,
        (upgradePost cfg Z p db b0 cap top).cut⟩ := by
  obtain ⟨bytes, henc, hdec, hbound, hlen⟩ := keptSb_encodes hZ (superblockCborDecode_dir hup.decodes)
  have hle : p.sbId.toNat ≤ top := by
    by_contra hlt
    have hnone := hup.tidy _ (not_le.mp hlt)
    rw [hup.stored] at hnone
    cases hnone
  have hsettled : Settled Z p b0 (Function.update b p.sbId.toNat (some bytes)) := by
    refine ⟨fun id ho => ?_, ⟨bytes, Function.update_self _ _ _, hbound, hlen, hdec⟩, fun id ho hne => ?_⟩
    . have hne : id ≠ p.sbId.toNat := fun he => hup.sb_alone (he ▸ ho)
      rw [Function.update_of_ne hne]
      exact hgone id ho
    . rw [Function.update_of_ne hne]
      exact h.frame id ho
  rw [sbCommit, henc]
  refine (@blobDbUpdate_roomy _ _ _ _ _ _ _ bytes hup.sb_pos hle (le_trans hlen hsb) (by omega)).conseq
    (fun _ hs => hs) ?_ (fun _ _ hf => hf) ?_
  . rintro _ s ⟨hb, hu⟩
    exact ⟨hu, hb ▸ hsettled⟩
  . rintro s (⟨hb, hu⟩ | ⟨hb, hu⟩)
    . exact .inl ⟨hu, hb ▸ h⟩
    . exact .inr ⟨hu, hb ▸ hsettled⟩

theorem attachStore_leaving (hmax : cfg.maxPayload ≤ cfg.maxObject) (h : Leaving cfg p b0 top b) :
    Spec H (CalmAt cfg.toStoreCfg cap top b) (attachStore cfg Z p.sbId p.bytes)
      (upgradePost cfg Z p db b0 cap top) := by
  have hstay : ∀ {root : Nat}, Staying cfg p b0 top root → Staying cfg p b top root :=
    fun hs => hs.later fun id ho _ => h.frame id ho
  rw [attachStore, hup.decodes]
  refine Spec.ofExcept_bind (fun e he => ?_) fun db' hdb => ?_
  . rw [hup.resolves] at he
    cases he
  rw [hup.resolves] at hdb
  cases hdb
  refine (mapGone_staying (hstay hup.people)).bind (fun gone => Spec.fact ?_) (fun _ _ hf => hf)
    fun _ hf => hf.elim
  rintro rfl
  refine Spec.ite (fun hf => absurd hf Bool.false_ne_true) fun _ => ?_
  refine (mapGone_staying (hstay hup.cred)).bind (fun gone => Spec.fact ?_) (fun _ _ hf => hf)
    fun _ hf => hf.elim
  rintro rfl
  refine Spec.ite (fun hf => absurd hf Bool.false_ne_true) fun _ => Spec.ite (fun hcur => ?_) fun _ => ?_
  . have hcur : Current p.sb := hcur
    have hnone : ∀ id, ¬ Owned (drops p.sb) p.own id := by
      rintro id ⟨t, ht, -⟩
      rw [hcur.no_drops] at ht
      cases ht
    refine Spec.ret ?_
    rintro s ⟨rfl, hu⟩
    refine ⟨by rw [handleOf, hcur.kept], hu.widen, fun id ho => absurd ho (hnone id),
      ⟨p.bytes, (h.frame _ hup.sb_alone).trans hup.stored, hup.bound, hup.short, ?_⟩,
      fun id ho _ => h.frame id ho⟩
    rw [hcur.kept]
    exact hup.decodes
  . rw [tablesDrop_eq, Proc.bind_assoc]
    have hdrop := @destroyAll_spec cfg p.own b0 cap top H _ _ [] hmax hup.apart
      (fun _ ht => by cases ht) (fun t ht => ht) fun _ => False
    have hcalm : ∀ s, CalmAt cfg.toStoreCfg cap top b s →
        Razing cfg (drops p.sb) [] p.own b0 cap top (fun _ => False) s := by
      rintro s ⟨rfl, hu⟩
      exact ⟨hu, h, fun _ ht => (by cases ht), fun _ hf => hf.elim⟩
    refine (hdrop.pre hcalm).bind (fun _ => ?_) (fun _ _ hf => hf) ?_
    . refine Spec.ret_bind ?_
      intro s hs hh
      have hgone : ∀ id, Owned (drops p.sb) p.own id → s.blobs id = none := by
        rintro id ⟨t, ht, ho⟩
        exact hs.gone t (.inr ht) id ho
      have hcommit := commitKept_spec (H := H) hsb hZ hup hroom hs.going hgone
      have hdone := hcommit.bind (R := upgradePost cfg Z p db b0 cap top)
        (f := fun _ => pure (handleOf p db)) (fun _ => Spec.ret fun _ ht => ⟨rfl, ht⟩) (fun _ _ hf => hf)
        fun _ hc => hc
      exact hdone s ⟨rfl, hs.unfailing⟩ hh
    . exact fun s hs => .inl ⟨hs.unfailing, hs.going⟩

end

/-! An open that finds a superblock -/

theorem blobDbGet_run {s : World KvRam} {id outSz : Nat} {data : List UInt8}
    (hu : Unfailing cfg.toStoreCfg cap top s) (hb : s.blobs id = some data) (hlen : data.length ≤ outSz) :
    blobDbGet id outSz s = (.ok data, s) := by
  simp only [blobDbGet, readBlob, hu.reads, List.headD_nil, hb, if_pos hlen, hu.readDone]

-- The registry leads to a superblock that is bound.
structure Found (cfg : KvdbCfg) (sbId : UInt64) (bytes : List UInt8) (b : Blobs) : Prop where
  entry : bindings cfg.reg b padbRootregKey = some sbId
  stored : b sbId.toNat = some bytes
  bound : bytes ≠ []
  short : bytes.length ≤ superblockCborMax

-- All that an open does then is to attach.
theorem persondbOpen_attaches {s : World KvRam} {sbId : UInt64} {bytes : List UInt8}
    (hu : Unfailing cfg.toStoreCfg cap top s) (h : Found cfg sbId bytes s.blobs) (nPersons : UInt32) :
    persondbOpen cfg Z nPersons s = attachStore cfg Z sbId bytes s := by
  obtain ⟨es, hreg⟩ := registry_of_binding h.entry
  obtain ⟨data, hdata, hcheck⟩ := registry_data hreg
  have hfits : data.length ≤ cfg.reg.imageMax := by
    have hlen := rrCheck_length hcheck
    rw [RegCfg.imageMax]
    omega
  have hload : (rrLoad cfg.reg : K (List RrEntry)) s = (.ok es, s) := by
    rw [rrLoad, Proc.bind_ok (blobDbGet_run hu hdata hfits), hcheck]
    rfl
  have hinit : (rootregInit cfg.reg : K Unit) s = (.ok (), s) := by
    have hload' : Proc.attempt (rrLoad cfg.reg : K (List RrEntry)) s = (.ok (.ok es), s) := by
      rw [Proc.attempt_run, hload]
      rfl
    rw [rootregInit, Proc.bind_ok hload']
    rfl
  have hget : Proc.attempt (rootregGet cfg.reg padbRootregKey : K UInt64) s = (.ok (.ok sbId), s) := by
    have hentry := h.entry
    rw [bindings_of hreg] at hentry
    cases hfind : rrFind es padbRootregKey with
    | none =>
      rw [rrFind_none.mp hfind] at hentry
      cases hentry
    | some idx =>
      have hroot := (rrFind_some hfind).2.2
      rw [hentry, Option.some.injEq] at hroot
      rw [Proc.attempt_run, rootregGet, if_neg padbRootregKey_ne, Proc.bind_ok hload, hfind, hroot]
      rfl
  have hsb : Proc.attempt (blobDbGet sbId.toNat superblockCborMax : K (List UInt8)) s =
      (.ok (.ok bytes), s) := by
    rw [Proc.attempt_run, blobDbGet_run hu h.stored h.short]
    rfl
  rw [persondbOpen, Proc.bind_ok hinit, Proc.bind_ok hget]
  simp only
  rw [Proc.bind_ok hsb]
  simp only
  rw [if_neg fun h0 => h.bound (List.length_eq_zero_iff.mp h0)]

theorem mapGone_uncut (root : Nat) : Uncut (mapGone cfg root) := by
  refine kvhashStat_uncut.attempt.bind fun r => ?_
  cases r <;> exact Uncut.ret _

theorem attachStore_uncut (sbId : UInt64) (bytes : List UInt8) : Uncut (attachStore cfg Z sbId bytes) := by
  rw [attachStore]
  cases superblockCborDecode Z bytes with
  | error e => exact Uncut.fail _
  | ok sb =>
    refine (Uncut.ofExcept _).bind fun db => (mapGone_uncut _).bind fun _ => Uncut.ite (Uncut.fail _) ?_
    refine (mapGone_uncut _).bind fun _ => Uncut.ite (Uncut.fail _) (Uncut.ite (Uncut.ret _) ?_)
    simp only [tablesDrop_eq, Proc.bind_assoc]
    refine (destroyAll_uncut _).bind fun _ => (Uncut.ret _).bind fun _ => ?_
    exact ((Uncut.ofExcept _).bind fun _ => Uncut.blobDbUpdate _ _ _).bind fun _ => Uncut.ret _

-- A store that has been rewritten is attached as it is.
theorem attachStore_settled (hup : Upgradable cfg Z p db b0 top) (h : Settled Z p b0 b)
    {bytes : List UInt8} (hdec : superblockCborDecode Z bytes = .ok (keptSb p.sb)) :
    Spec H (CalmAt cfg.toStoreCfg cap top b) (attachStore cfg Z p.sbId bytes)
      ⟨fun hdl s => hdl = handleOf p db ∧ CalmAt cfg.toStoreCfg cap top b s, fun _ _ => False,
        fun _ => False⟩ := by
  have hresolves := tablesResolve_kept hup.resolves
  rw [attachStore, hdec]
  refine Spec.ofExcept_bind (fun e he => ?_) fun db' hdb => ?_
  . rw [keptSb, hresolves] at he
    cases he
  rw [keptSb, hresolves] at hdb
  cases hdb
  refine (mapGone_staying (hup.people.later h.frame)).bind (fun gone => Spec.fact ?_) (fun _ _ hf => hf)
    fun _ hf => hf.elim
  rintro rfl
  refine Spec.ite (fun hf => absurd hf Bool.false_ne_true) fun _ => ?_
  refine (mapGone_staying (hup.cred.later h.frame)).bind (fun gone => Spec.fact ?_) (fun _ _ hf => hf)
    fun _ hf => hf.elim
  rintro rfl
  refine Spec.ite (fun hf => absurd hf Bool.false_ne_true) fun _ => ?_
  exact Spec.ite (fun _ => Spec.ret fun s hs => ⟨rfl, hs⟩) fun hno => absurd (keptSb_current p.sb) hno

/-! The system -/

def runOpens (cfg : KvdbCfg) (Z : Zcbor) (w : World KvRam) : List (UInt32 × StoreCall) → World KvRam
  | [] => w
  | c :: cs => runOpens cfg Z (openCall cfg Z c.1 w c.2).2 cs

-- Between two opens. Before the superblock is rewritten, there is room for it.
def Waiting (cfg : KvdbCfg) (Z : Zcbor) (p : Parts) (b0 : Blobs) (top : Nat) (w : World KvRam) : Prop :=
  Tallied cfg.toStoreCfg w.blobs w.used ∧ w.top = top ∧
    (w.used + superblockCborMax ≤ cfg.partition ∧ Leaving cfg p b0 top w.blobs ∨ Settled Z p b0 w.blobs)

theorem openCall_waiting (hmax : cfg.maxPayload ≤ cfg.maxObject) (hsb : superblockCborMax ≤ cfg.maxObject)
    (hZ : Canonical Z) (hup : Upgradable cfg Z p db b0 top) {w : World KvRam} {c : StoreCall}
    (h : Waiting cfg Z p b0 top w) (hc : c.Powered) (nPersons : UInt32) :
    Waiting cfg Z p b0 top (openCall cfg Z nPersons w c).2 ∧
      ((openCall cfg Z nPersons w c).1 = .ok (handleOf p db) ∧
          Settled Z p b0 (openCall cfg Z nPersons w c).2.blobs ∨
        (openCall cfg Z nPersons w c).1 = .cut ∧ ¬ c.Uncut) := by
  obtain ⟨htally, htop, hstage⟩ := h
  have hstart : ∀ {cap : Nat}, w.used ≤ cap → Unfailing cfg.toStoreCfg cap top (storeCall w c) :=
    fun hle => ⟨rfl, hc, htally, hle, htop, by rintro ⟨_, hmem, -⟩; cases hmem⟩
  have hentry : ∀ {b : Blobs}, b blobDbRootId = b0 blobDbRootId →
      bindings cfg.reg b padbRootregKey = some p.sbId :=
    fun hreg => (bindings_same hreg _).trans hup.entry
  rcases hstage with ⟨hroom, hleave⟩ | hsettled
  . have hu := @hstart (cfg.partition - superblockCborMax) (by omega)
    have hfound : Found cfg p.sbId p.bytes w.blobs :=
      ⟨hentry (hleave.frame _ hup.reg_alone), (hleave.frame _ hup.sb_alone).trans hup.stored, hup.bound,
        hup.short⟩
    have hrun := persondbOpen_attaches (Z := Z) hu hfound nPersons
    have hpost := attachStore_leaving (H := anyRun) hsb hZ hup (by omega) hmax hleave
      (storeCall w c) ⟨rfl, hu⟩ trivial
    have hno := @attachStore_uncut cfg Z p.sbId p.bytes (storeCall w c)
    rw [openCall, hrun]
    generalize attachStore cfg Z p.sbId p.bytes (storeCall w c) = r at hpost hno
    obtain ⟨o, s⟩ := r
    cases o with
    | ok hdl =>
      obtain ⟨rfl, hu', hs⟩ := hpost
      exact ⟨⟨hu'.tallied, hu'.ids, .inr hs⟩, .inl ⟨rfl, hs⟩⟩
    | err e => exact hpost.elim
    | cut =>
      refine ⟨?_, .inr ⟨rfl, fun hn => (hno hn).1 rfl⟩⟩
      rcases hpost with ⟨hu', hl⟩ | ⟨hu', hs⟩
      . have hused : s.used + superblockCborMax ≤ cfg.partition := by
          have hle := hu'.room
          omega
        exact ⟨hu'.tallied, hu'.ids, .inl ⟨hused, hl⟩⟩
      . exact ⟨hu'.tallied, hu'.ids, .inr hs⟩
  . obtain ⟨bytes, hbytes, hbound, hshort, hdec⟩ := hsettled.stored
    have hu := @hstart cfg.partition htally.1
    have hfound : Found cfg p.sbId bytes w.blobs :=
      ⟨hentry (hsettled.frame _ hup.reg_alone hup.sb_ne.symm), hbytes, hbound, hshort⟩
    have hrun := persondbOpen_attaches (Z := Z) hu hfound nPersons
    have hpost := attachStore_settled (H := anyRun) hup hsettled hdec (storeCall w c) ⟨rfl, hu⟩ trivial
    rw [openCall, hrun]
    generalize attachStore cfg Z p.sbId bytes (storeCall w c) = r at hpost
    obtain ⟨o, s⟩ := r
    cases o with
    | ok hdl =>
      obtain ⟨rfl, hb, hu'⟩ := hpost
      have hs : Settled Z p b0 s.blobs := by
        rw [hb]
        exact hsettled
      exact ⟨⟨hu'.tallied, hu'.ids, .inr hs⟩, .inl ⟨rfl, hs⟩⟩
    | err e => exact hpost.elim
    | cut => exact hpost.elim

theorem runOpens_waiting (hmax : cfg.maxPayload ≤ cfg.maxObject) (hsb : superblockCborMax ≤ cfg.maxObject)
    (hZ : Canonical Z) (hup : Upgradable cfg Z p db b0 top) {w : World KvRam}
    (cs : List (UInt32 × StoreCall)) (h : Waiting cfg Z p b0 top w) (hcs : ∀ c ∈ cs, c.2.Powered) :
    Waiting cfg Z p b0 top (runOpens cfg Z w cs) := by
  induction cs generalizing w with
  | nil => exact h
  | cons c cs ih =>
    exact ih (openCall_waiting hmax hsb hZ hup h (hcs c List.mem_cons_self) c.1).1
      fun d hd => hcs d (List.mem_cons_of_mem _ hd)

theorem mixedStore_upgradable :
    Upgradable officeKvdb zcbor mixedParts ⟨3, 4⟩ mixedStore.blobs mixedStore.top := by
  have hdrop : ∀ t ∈ drops mixedSb, t = ⟨7, 5, sbClassDerived, 9⟩ := by decide
  have hlone : ∀ id, id ≠ 5 → ¬ Owned (drops mixedSb) mixedParts.own id := by
    rintro id hid ⟨t, ht, ho⟩
    obtain rfl := hdrop t ht
    exact hid ho
  have hempty : ∀ root ∈ [3, 4, 5], MapWhole officeKvdb.toKvCfg root (fun id => id = root)
      mixedStore.blobs mixedStore.top := by
    intro root hr
    have hmap : ∀ root ∈ [3, 4, 5], mixedStore.blobs root = some noBuckets := by decide
    have hbounds : 0 < root ∧ root ≤ 5 := by
      simp only [List.mem_cons, List.not_mem_nil, or_false] at hr
      omega
    exact mapWhole_empty hbounds.1 hbounds.2 (by decide) le_rfl (by decide) (hmap root hr)
  refine ⟨mixedStore_laid.toSeated, by decide, rfl, ?_, ?_, fun t ht => ?_, fun t ht u hu => ?_,
    hlone _ (by decide), hlone _ (by decide)⟩
  . refine ⟨_, hempty 3 (by decide), ?_⟩
    rintro id rfl
    exact ⟨hlone 3 (by decide), by decide⟩
  . refine ⟨_, hempty 4 (by decide), ?_⟩
    rintro id rfl
    exact ⟨hlone 4 (by decide), by decide⟩
  . obtain rfl := hdrop t ht
    exact hempty 5 (by decide)
  . obtain rfl := hdrop t ht
    obtain rfl := hdrop u hu
    exact .inl rfl

end KeyValueDb.Persondb
