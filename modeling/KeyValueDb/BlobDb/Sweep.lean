import KeyValueDb.BlobDb.Lookup
import KeyValueDb.BlobDb.Seal
import KeyValueDb.BlobDb.Wedge

/-!
The sweep spares what the index lists. Whatever reads fail while it walks the buckets, the only
segments it tombstones are those that the index record it loaded does not name.
-/

namespace KeyValueDb.BlobDb

variable (cfg : Cfg)

-- The index record that a stored value is, with its segment table.
def indexOf (st : St) (s : Stored) : Option (IndexHdr × List Nat) :=
  if s.flags &&& slotIndexed == 0 || decide (s.payload.length < indexHdrLen) then none
  else
    let h := indexHdrOf s.payload
    if indexHdrValid st h s.payload.length then
      some (h, segIdsOf (s.payload.drop indexHdrLen) h.segCount)
    else none

-- The segments that the live index record of `owner` lists.
def listed (st : St) (fl : Flash) (owner : Nat) : List Nat :=
  match (contentOf cfg fl owner).bind (indexOf st) with
  | some (_, ids) => ids
  | none => []

-- The id that a slot appended to a bucket tombstones.
def Event.tombstoned : Event → Option Nat
  | .mutation m =>
    match m.request with
    | .write off data =>
      let h := slotHdrAt (image data) 0
      if firstBucket ≤ m.sector ∧ bucketDataOff ≤ off ∧ h.flags &&& slotTombstone ≠ 0 then some h.id
      else none
    | _ => none
  | .alloc _ => none

-- What a run added to the history.
def World.since (w' w : World) : List Event := w'.history.take (w'.history.length - w.history.length)

-- No event since `past` tombstones one of `ids`.
structure Spares (past : List Event) (ids : List Nat) (w : World) : Prop where
  active : w.st.activeMaster ≤ 1
  spared : ∃ new, w.history = new ++ past ∧ ∀ e ∈ new, ∀ sid ∈ ids, e.tombstoned ≠ some sid

section

variable {cfg} {past : List Event} {ids : List Nat}

theorem spares_stable : Stable (Spares past ids) := by
  intro w w' q h
  refine ⟨?_, ?_⟩
  . rw [q.activeMaster]
    exact h.active
  . rw [q.history]
    exact h.spared

theorem Spares.ram {w : World} {st : St} (h : Spares past ids w) (hst : st.activeMaster ≤ 1) :
    Spares past ids { w with st := st } := ⟨hst, h.spared⟩

theorem Spares.mutate {w : World} (h : Spares past ids w) {sector : Nat} {r : Request}
    (hr : ∀ sid ∈ ids, (Event.mutation (w.mutation sector r)).tombstoned ≠ some sid) :
    Spares past ids (w.mutate sector r) := by
  obtain ⟨new, hnew, hall⟩ := h.spared
  refine ⟨h.active, .mutation (w.mutation sector r) :: new, ?_, ?_⟩
  . rw [World.mutate_history, hnew]
    rfl
  . intro e he
    cases he with
    | head => exact hr
    | tail _ he => exact hall e he

theorem storeMutate_spares {sector : Nat} {r : Request}
    (hr : ∀ w : World, ∀ sid ∈ ids, (Event.mutation (w.mutation sector r)).tombstoned ≠ some sid) :
    Keeps AnyEvent (Spares past ids) (Spares past ids) (Spares past ids) (storeMutate sector r) := by
  apply storeMutate_spec
  . exact fun w h _ _ => h.mutate (hr w)
  . exact fun w _ _ h _ _ => h.mutate (hr w)
  . exact fun w _ _ h _ _ => h.mutate (hr w)

-- Only an append to a bucket can be a tombstone.
theorem not_tombstoned {sector : Nat} {r : Request}
    (h : sector < firstBucket ∨ ∀ off data, r = .write off data → off < bucketDataOff) (w : World)
    (sid : Nat) : (Event.mutation (w.mutation sector r)).tombstoned ≠ some sid := by
  cases r with
  | write off data =>
    unfold Event.tombstoned World.mutation
    simp only
    rw [if_neg]
    . exact fun h => nomatch h
    . rintro ⟨h1, h2, -⟩
      rcases h with h | h
      . exact Nat.not_le_of_lt h h1
      . exact Nat.not_le_of_lt (h off data rfl) h2
  | erase => exact fun h => nomatch h
  | replace data => exact fun h => nomatch h

theorem mutate_spares {sector : Nat} {r : Request}
    (h : sector < firstBucket ∨ ∀ off data, r = .write off data → off < bucketDataOff) :
    Keeps AnyEvent (Spares past ids) (Spares past ids) (Spares past ids) (storeMutate sector r) :=
  storeMutate_spares fun w sid _ => not_tombstoned h w sid

theorem spares_neutral : Neutral AnyEvent (Spares past ids) (Spares past ids) where
  active _ h := h.active
  ram _ _ hst h := h.ram hst.active
  note w id h := by
    obtain ⟨new, hnew, hall⟩ := h.spared
    refine ⟨h.active, .alloc id :: new, by rw [hnew]; rfl, ?_⟩
    intro e he
    cases he with
    | head => exact fun _ _ h => nomatch h
    | tail _ he => exact hall e he
  master slot r hs := mutate_spares (.inl (by unfold firstBucket; omega))

theorem compactCommit_spares (bid : Nat) (image : List UInt8) :
    Keeps AnyEvent (Spares past ids) (Spares past ids) (Spares past ids)
      (compactCommit cfg bid image) := by
  have herase : ∀ sector, Keeps AnyEvent (Spares past ids) (Spares past ids) (Spares past ids)
      (storeErase sector) := fun sector => mutate_spares (.inr fun _ _ h => nomatch h)
  have hstart : ∀ sector, Keeps AnyEvent (Spares past ids) (Spares past ids) (Spares past ids)
      (storeWrite sector 0 image) := by
    intro sector
    apply mutate_spares
    right
    rintro off data ⟨⟩
    decide
  have hwedge : ∀ {x : M Unit}, Keeps AnyEvent (Spares past ids) (Spares past ids) (Spares past ids) x →
      Keeps AnyEvent (Spares past ids) (Spares past ids) (Spares past ids) (compactOrWedge x) := by
    intro x hx
    unfold compactOrWedge
    apply hx.caught
    . exact fun _ => ret_reads _
    . intro e
      refine modifySt_bind (I := Spares past ids) (fun w h => h.ram h.active) ?_
      exact fun _ => fail_reads _
    . exact fun _ h => h
  unfold compactCommit
  split
  . exact fail_reads _
  . split
    . next ha =>
      unfold storeReplace
      rw [if_pos ha]
      exact mutate_spares (.inr fun _ _ h => nomatch h)
    . apply (herase _).seq
      intro _
      apply (hstart _).seq
      intro _
      have hseal : Keeps AnyEvent (Spares past ids) (Spares past ids) (Spares past ids)
          (scratchSealWrite cfg image) := mutate_spares (.inl (by decide))
      apply hseal.seq
      intro _
      apply (hwedge (herase _)).seq
      intro _
      apply (hwedge (hstart _)).seq
      intro _
      exact hwedge (herase _)

theorem compactBucket_spares (bid : Nat) :
    Keeps AnyEvent (Spares past ids) (Spares past ids) (Spares past ids) (compactBucket cfg bid) :=
  compactBucket_keeps spares_stable spares_stable (fun _ h => h) bid
    fun image _ => compactCommit_spares bid image

theorem slotHdrAt_slotImage {flags : UInt8} {id : Nat} (hid : id < 2 ^ 64) :
    slotHdrAt (image (slotImage cfg flags id [])) 0 = ⟨flags, 0, 0, id⟩ := by
  have h : bytesAt (image (slotImage cfg flags id [])) 0 (slotOverhead + ([] : List UInt8).length) =
      slotBytes flags id [] := by
    rw [← slotImage_take cfg]
    have hlen := slotImage_length cfg flags id []
    have hge := slotSizeFor_ge cfg ([] : List UInt8).length
    have htake : ((slotImage cfg flags id []).take (slotOverhead + ([] : List UInt8).length)).length =
        slotOverhead + ([] : List UInt8).length := by
      rw [List.length_take]
      omega
    rw [← htake]
    apply bytesAt_eq_of_getD
    intro i hi
    rw [htake] at hi
    simp only [image, Nat.zero_add, List.getD_eq_getElem?_getD]
    rw [List.getElem?_take_of_lt (by omega), List.getElem?_eq_getElem (by omega)]
    rfl
  exact congrArg Entry.head (entryAt_written hid (by decide) h)

theorem appendTombstone_spares {sid : Nat} (hsid : sid < 2 ^ 64) (hnot : sid ∉ ids)
    (bid cursor : Nat) :
    Keeps AnyEvent (Spares past ids) (Spares past ids) (Spares past ids)
      (appendSlot2 cfg bid cursor sid (slotTombstone ||| slotSegment) [] []) := by
  have hwrite : Keeps AnyEvent (Spares past ids) (Spares past ids) (Spares past ids)
      (storeWrite (bucketSector bid) cursor
        (slotImage cfg (slotSealed ||| (slotTombstone ||| slotSegment)) sid ([] ++ []))) := by
    apply storeMutate_spares
    intro w id hid
    unfold Event.tombstoned World.mutation
    simp only [List.append_nil, slotHdrAt_slotImage hsid]
    split
    . rintro ⟨⟩
      exact hnot hid
    . exact fun h => nomatch h
  unfold appendSlot2
  simp only
  split
  . exact fail_reads _
  . split
    . exact fail_reads _
    . apply (idxInvalidate_reads spares_stable).seq
      intro _
      apply hwrite.caught
      . intro _
        exact sidx_reads spares_stable _
      . intro e
        apply (sidx_reads spares_stable _).seq
        intro _
        exact fail_reads _
      . exact fun _ h => h

theorem segReleaseOne_spares {sid : Nat} (hsid : sid < 2 ^ 64) (hnot : sid ∉ ids) :
    Keeps AnyEvent (Spares past ids) (Spares past ids) (Spares past ids)
      (segReleaseOne cfg sid) := by
  unfold segReleaseOne
  apply (readBucketHdr_reads spares_stable _).seq
  intro formatted
  split
  . exact fail_reads _
  . apply (walkCursor_reads spares_stable _ _).seq
    intro cursor
    split
    . apply (compactBucket_spares _).seq
      intro _
      apply (walkCursor_reads spares_stable _ _).seq
      intro cursor
      split
      . exact fail_reads _
      . apply (appendTombstone_spares hsid hnot _ _).seq
        intro _
        exact ret_reads _
    . apply (appendTombstone_spares hsid hnot _ _).seq
      intro _
      exact ret_reads _

theorem segSweepFrom_spares (owner n bid : Nat) :
    Keeps AnyEvent (Spares past ids) (Spares past ids) (Spares past ids)
      (segSweepFrom cfg owner ids n bid) :=
  segSweepFrom_of_release spares_stable (fun _ h => h) (fun _ => segReleaseOne_spares) _ _ _

theorem persistSegOwner_spares (owner : Nat) :
    Keeps AnyEvent (Spares past ids) (Spares past ids) (Spares past ids)
      (persistSegOwner cfg owner) := by
  unfold persistSegOwner
  apply getSt_bind
  intro st
  split
  . exact Spec.ret fun _ h => h.2
  . refine modifySt_bind (I := Spares past ids) (fun w h => h.2.ram h.2.active) ?_
    intro _
    apply (masterCommitHow_neutral spares_neutral false).caught
    . exact fun _ => ret_reads _
    . intro e
      refine modifySt_bind (I := Spares past ids) (fun w h => h.ram h.active) ?_
      exact fun _ => fail_reads _
    . exact fun _ h => h

/-! The index a sweep loads -/

theorem indexHdrValid_congr {st st' : St} (h : st.segMax = st'.segMax) (hdr : IndexHdr) (n : Nat) :
    indexHdrValid st hdr n = indexHdrValid st' hdr n := by
  simp only [indexHdrValid, h]

-- How the load of an index record can fail.
inductive LoadFails (cfg : Cfg) (st : St) (fl : Flash) (k : Prop) (id : Nat) : Errno → Prop where
  | absent (h : contentOf cfg fl id = none) : LoadFails cfg st fl k id .ENOENT
  | rotten {s : Stored} (h : contentOf cfg fl id = some s) (hi : s.flags &&& slotIndexed ≠ 0)
      (hx : indexOf st s = none) : LoadFails cfg st fl k id Errno.EIO
  | foreign {es : List Entry} {fin : Nat}
      (hl : BucketLog cfg (fl (bucketSector (cfg.idToBucket id))) es fin)
      (h : slotForeignAt cfg (fl (bucketSector (cfg.idToBucket id))) fin = true) :
      LoadFails cfg st fl k id .ENOTSUP
  | read (h : k) : LoadFails cfg st fl k id Errno.EIO

section

variable {good : Event → Prop} {I C : World → Prop} {fl : Flash} {K : World → Prop} {st : St}
  (S : Stable I) (hr : FailsTo I K) (hv : cfg.Valid)
  (hmax : ∀ w, I w → w.st.segMax = st.segMax)

include S hr hv hmax

theorem indexLoad_tells (id : Nat) :
    Spec (History good) (Indexed cfg I fl (cfg.idToBucket id) id) (indexLoad cfg id)
      ⟨fun r w => r = (contentOf cfg fl id).bind (indexOf st) ∧ Reading I fl w,
        fun e w => LoadFails cfg st fl (K w) id e ∧ Reading I fl w, C⟩ := by
  obtain ⟨es, fin, hl⟩ := exists_bucketLog cfg (fl (bucketSector (cfg.idToBucket id)))
  unfold indexLoad
  simp only
  apply (readBucketHdr_tells S.readClosed hr _ id).bind
  . intro formatted
    apply Spec.assuming
    . exact fun w h => h.1
    . rintro rfl
      cases hhdr : bucketHdrValid (fl (bucketSector (cfg.idToBucket id))) (cfg.idToBucket id) with
      | false => exact Spec.fail fun w h => ⟨.absent (contentOf_unformatted hhdr), h.2.1⟩
      | true =>
        refine Spec.pre ?_ fun w h => h.2
        simp only [Bool.not_true, Bool.false_eq_true, if_false]
        apply (findLiveSlot_tells S hr hv id hl).bind
        . intro found
          apply Spec.assuming
          . exact fun w h => h.1.1
          . intro hfound
            obtain ⟨hcontent, hlen⟩ := hfound.content hv hl hhdr
            refine Spec.pre ?_ fun w h => h.2
            cases hlive : found.live with
            | none =>
              rw [hlive] at hcontent
              exact Spec.fail fun w h => ⟨.absent hcontent, h⟩
            | some live =>
              rw [hlive] at hcontent
              have hval := hlen live hlive
              simp only [Option.map_some] at hcontent
              simp only
              have hflags : live.stored.flags = live.head.flags := rfl
              have hpay : live.stored.payload = live.payload := rfl
              split
              . next hi =>
                apply Spec.ret
                intro w h
                refine ⟨?_, h⟩
                simp [hcontent, indexOf, hflags, hi]
              . next hi =>
                have hi' : live.stored.flags &&& slotIndexed ≠ 0 := by simpa [hflags] using hi
                split
                . next hshort =>
                  apply Spec.fail
                  intro w h
                  refine ⟨.rotten hcontent hi' ?_, h⟩
                  simp [indexOf, hpay, ← hval, hshort]
                . next hshort =>
                  apply getSt_bind
                  intro st'
                  apply Spec.assuming (φ := st'.segMax = st.segMax)
                  . rintro w ⟨rfl, h⟩
                    exact hmax w h.1
                  . intro hst
                    rw [indexHdrValid_congr hst]
                    split
                    . next hvalid =>
                      apply Spec.ret
                      intro w h
                      refine ⟨?_, h.2⟩
                      rw [hval] at hvalid hshort
                      simp [hcontent, indexOf, hflags, hpay, hi, hshort, hvalid]
                    . next hvalid =>
                      apply Spec.fail
                      intro w h
                      refine ⟨.rotten hcontent hi' ?_, h.2⟩
                      rw [hval] at hvalid
                      simp [indexOf, hpay, hvalid]
        . intro e w h
          refine ⟨?_, h.2⟩
          rcases h.1 with ⟨rfl, hf⟩ | ⟨hk, rfl⟩
          . exact .foreign hl hf
          . exact .read hk
        . exact fun _ h => h
  . rintro e w ⟨⟨hk, rfl⟩, h⟩
    exact ⟨.read hk, h⟩
  . exact fun _ h => h

end

-- What a sweep may rely on when it starts: a cached index record of the owner is the one on flash,
-- and so is what the slot index says of the owner.
structure SweepStart (cfg : Cfg) (owner : Nat) (w : World) : Prop where
  valid : cfg.Valid
  active : w.st.activeMaster ≤ 1
  cache : w.st.idxId = owner →
    (contentOf cfg w.flash owner).bind (indexOf w.st) = some (w.st.idxHdr, w.st.segA)
  index : cfg.slotIndex = true → IndexTrue cfg w.flash w.st (cfg.idToBucket owner) owner

-- Whether one of the reads between `w₀` and `w` failed.
def ReadFailed (w₀ w : World) : Prop :=
  true ∈ w₀.readFaults.take (w₀.readFaults.length - w.readFaults.length)

instance (w₀ w : World) : Decidable (ReadFailed w₀ w) := inferInstanceAs (Decidable (_ ∈ _))

-- While the index is looked up, nothing but caches changes.
structure Untouched (w₀ w : World) : Prop where
  segMax : w.st.segMax = w₀.st.segMax
  active : w.st.activeMaster = w₀.st.activeMaster
  history : w.history = w₀.history
  reads : w.readFaults <:+ w₀.readFaults

theorem untouched_stable (w₀ : World) : Stable (Untouched w₀) := by
  intro w w' q h
  refine ⟨?_, ?_, ?_, q.reads.trans h.reads⟩
  . rw [q.segMax]
    exact h.segMax
  . rw [q.activeMaster]
    exact h.active
  . rw [q.history]
    exact h.history

theorem untouched_failsTo (w₀ : World) : FailsTo (Untouched w₀) (ReadFailed w₀) := by
  intro w h hfault
  obtain ⟨past, hpast⟩ := h.reads
  unfold ReadFailed
  rw [← hpast]
  cases hr : w.readFaults with
  | nil => simp [hr] at hfault
  | cons b rest =>
    have hb : b = true := by simpa [hr] using hfault
    have hlen : (past ++ b :: rest).length - rest.length = past.length + 1 := by
      simp only [List.length_append, List.length_cons]
      omega
    rw [List.tail_cons, hlen, hb, List.take_append]
    simp

theorem indexLoadCached_tells {owner : Nat} {w₀ : World} (h₀ : SweepStart cfg owner w₀) :
    Spec (History AnyEvent) (fun w => w = w₀) (indexLoadCached cfg owner)
      ⟨fun r w => r = (contentOf cfg w₀.flash owner).bind (indexOf w₀.st) ∧ Untouched w₀ w,
        fun e w => LoadFails cfg w₀.st w₀.flash (ReadFailed w₀ w) owner e ∧ Untouched w₀ w,
        fun _ => False⟩ := by
  unfold indexLoadCached
  apply getSt_bind
  intro st
  split
  . next hc =>
    apply Spec.ret
    rintro w ⟨rfl, rfl⟩
    exact ⟨(h₀.cache hc).symm, rfl, rfl, rfl, List.suffix_rfl⟩
  . have hload : Spec (History AnyEvent) (Indexed cfg (Untouched w₀) w₀.flash (cfg.idToBucket owner)
        owner) (indexLoad cfg owner)
        ⟨fun r w => r = (contentOf cfg w₀.flash owner).bind (indexOf w₀.st) ∧
            Reading (Untouched w₀) w₀.flash w,
          fun e w => LoadFails cfg w₀.st w₀.flash (ReadFailed w₀ w) owner e ∧
            Reading (Untouched w₀) w₀.flash w,
          fun _ => False⟩ :=
      indexLoad_tells (untouched_stable w₀) (untouched_failsTo w₀) h₀.valid (fun _ h => h.segMax) owner
    apply (hload.pre ?_).bind
    . intro r
      apply Spec.assuming
      . exact fun w h => h.1
      . rintro rfl
        cases (contentOf cfg w₀.flash owner).bind (indexOf w₀.st) with
        | none => exact Spec.ret fun w h => ⟨rfl, h.2.1⟩
        | some x =>
          refine modifySt_bind (I := Untouched w₀) (fun w h => ⟨h.2.1.1, h.2.1.2, h.2.1.3, h.2.1.4⟩) ?_
          exact fun _ => Spec.ret fun w h => ⟨rfl, h⟩
    . exact fun e w h => ⟨h.1, h.2.1⟩
    . exact fun _ h => h
    . rintro w ⟨-, rfl⟩
      exact ⟨⟨⟨rfl, rfl, rfl, List.suffix_rfl⟩, rfl⟩, h₀.index⟩

-- No foreign slot ends the log of the bucket that `id` belongs to.
def NotForeign (cfg : Cfg) (fl : Flash) (id : Nat) : Prop :=
  slotForeignAt cfg (fl (bucketSector (cfg.idToBucket id)))
    (logEndFrom cfg (fl (bucketSector (cfg.idToBucket id))) cfg.pebSize bucketDataOff) = false

instance (fl : Flash) (id : Nat) : Decidable (NotForeign cfg fl id) :=
  inferInstanceAs (Decidable (_ = _))

-- Where the lookup is not disturbed, a sweep starts with the list of the index on flash.
theorem segSweepListed_run {owner : Nat} {w : World} (h : SweepStart cfg owner w)
    (hforeign : NotForeign cfg w.flash owner)
    (hreads : ¬ ReadFailed w (indexLoadCached cfg owner w).2) :
    ∃ w', segSweepListed cfg owner w = (.ok (listed cfg w.st w.flash owner), w') ∧
      Spares w.history (listed cfg w.st w.flash owner) w' := by
  have hspares : ∀ w', Untouched w w' → Spares w.history (listed cfg w.st w.flash owner) w' := by
    intro w' hu
    refine ⟨by rw [hu.active]; exact h.active, [], hu.history, ?_⟩
    exact fun e he => nomatch he
  have hq := indexLoadCached_tells h w rfl fun _ _ => trivial
  unfold segSweepListed
  rw [Proc.bind_run, Proc.attempt_run]
  generalize indexLoadCached cfg owner w = r at hq hreads
  obtain ⟨o, w'⟩ := r
  refine ⟨w', ?_⟩
  cases o with
  | ok r =>
    obtain ⟨rfl, hu⟩ := hq
    refine ⟨?_, hspares w' hu⟩
    unfold listed
    cases (contentOf cfg w.flash owner).bind (indexOf w.st) <;> rfl
  | err e =>
    obtain ⟨hfail, hu⟩ := hq
    refine ⟨?_, hspares w' hu⟩
    have hnone : listed cfg w.st w.flash owner = [] := by
      unfold listed
      cases hfail with
      | absent hnone => rw [hnone]; rfl
      | rotten hs _ hx => rw [hs, Option.bind_some, hx]
      | foreign hl hf =>
        have hend := hl.path.logEndFrom hl.stop (hl.length_lt h.valid)
        rw [NotForeign, hend, hf] at hforeign
        cases hforeign
      | read hr => exact (hreads hr).elim
    rw [hnone]
    rfl
  | cut => exact hq.elim

end

-- The second generation of segments is written, but its index record is not: its write fails.
def orphanedRun : List Call :=
  [{ op := .format }, { op := .allocId }, { op := .update 2 (List.replicate 100 7) },
    { op := .update 2 (List.replicate 100 8), faults := [.none, .none, .none, .error 0 false] }]

def orphaned : World := { (runCalls largeDevice (World.fresh blankFlash) orphanedRun).2 with patience := 50 }

-- Power is lost after the new index record is written. The next mount fails to read the record once.
def unreadableIndexRun : List Call :=
  [{ op := .format }, { op := .allocId }, { op := .update 2 (List.replicate 100 7) },
    { op := .update 2 (List.replicate 100 8),
      faults := [.none, .none, .none, .none, .cut 0 false] }]

def unreadableIndex : World := (runCalls largeDevice (World.fresh blankFlash) unreadableIndexRun).2

def unreadableIndexMount : Call :=
  { op := .mount, patience := 50, readFaults := List.replicate 11 false ++ [true] }

end KeyValueDb.BlobDb
