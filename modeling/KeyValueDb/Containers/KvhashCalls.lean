import KeyValueDb.Containers.Kvhash
import KeyValueDb.Containers.StoreCalls

/-!
The calls on a map, as clients of the store: which of them only read.
-/

namespace KeyValueDb.Containers

variable {cfg : KvCfg} {root : Nat}

/-! Reading -/

theorem dirBuf_views : Views dirBuf := Views.getRam.bind fun _ => Views.ret _

theorem bktBuf_views : Views bktBuf := Views.getRam.bind fun _ => Views.ret _

theorem setDirBuf_views (f : List UInt8 → List UInt8) : Views (setDirBuf f) :=
  Views.getRam.bind fun _ => Views.putRam _

theorem setBktBuf_views (f : List UInt8 → List UInt8) : Views (setBktBuf f) :=
  Views.getRam.bind fun _ => Views.putRam _

theorem getDir_views (id : Nat) : Views (getDir cfg id) :=
  (Views.readBlob _ _).bind fun _ => (setDirBuf_views _).bind fun _ => Views.ret _

theorem getBkt_views (id : Nat) : Views (getBkt cfg id) :=
  (Views.readBlob _ _).bind fun _ => (setBktBuf_views _).bind fun _ => Views.ret _

theorem dirLoadRaw_views (id : Nat) : Views (dirLoadRaw cfg id) :=
  (getDir_views id).bind fun _ => dirBuf_views.bind fun _ => Views.ofExcept _

theorem dirLoad_views (id : Nat) : Views (dirLoad cfg id) :=
  (dirLoadRaw_views id).bind fun _ => Views.ite (Views.fail _) (Views.ret _)

theorem resolveLeaf_views (h : UInt32) : Views (resolveLeaf cfg root h) :=
  (dirLoad_views root).bind fun _ => Views.ite (Views.ret _) (dirBuf_views.bind fun _ =>
    Views.ite (Views.fail _) ((dirLoad_views _).bind fun _ =>
      Views.ite (Views.fail _) (Views.ret _)))

theorem keyChunk_views (src : KeySrc) (pos n : Nat) : Views (keyChunk src pos n) := by
  cases src with
  | ram p => exact Views.ret _
  | blob id =>
    refine Views.ite (Views.fail _) ((Views.readBlob _ _).attempt.bind fun o => ?_)
    cases o with
    | ok bytes => exact Views.ite (Views.ret _) (Views.fail _)
    | error e => exact Views.fail _

theorem keyCmpChunks_views (a c : KeySrc) (len fuel pos : Nat) :
    Views (keyCmpChunks a c len fuel pos) := by
  induction fuel generalizing pos with
  | zero => exact Views.ret _
  | succ fuel ih =>
    exact Views.ite ((keyChunk_views _ _ _).bind fun _ => (keyChunk_views _ _ _).bind fun _ =>
      Views.ite (Views.ret _) (ih _)) (Views.ret _)

theorem keyToScratch_views (src : KeySrc) (len : Nat) : Views (keyToScratch src len) :=
  (keyChunk_views _ _ _).bind fun _ => (setDirBuf_views _).bind fun _ => dirBuf_views

theorem keyCmpBytes_views (a c : KeySrc) (len : Nat) (scratch : Bool) :
    Views (keyCmpBytes cfg a c len scratch) := by
  have hscratch : ∀ src (f : List UInt8 → Ordering),
      Views (do let q ← keyToScratch src len; pure (f q)) :=
    fun src f => (keyToScratch_views src len).bind fun _ => Views.ret _
  cases a with
  | ram p =>
    cases c with
    | ram q => exact Views.ret _
    | blob id => exact Views.ite (hscratch _ _) (keyCmpChunks_views _ _ _ _ _)
  | blob id =>
    cases c with
    | ram q => exact Views.ite (hscratch _ _) (keyCmpChunks_views _ _ _ _ _)
    | blob id' => exact keyCmpChunks_views _ _ _ _ _

theorem bktFindIn_views (buf key : List UInt8) (fp : UInt32) (ents : List (Nat × Ent)) :
    Views (bktFindIn cfg buf key fp ents) := by
  induction ents with
  | nil => exact Views.fail _
  | cons x ents ih =>
    exact Views.ite ih (Views.ite (Views.ite ih (Views.ret _)) (Views.ite ih
      ((keyCmpBytes_views _ _ _ _).bind fun _ => Views.ite ih (Views.ret _))))

theorem entValue_views (buf : List UInt8) (e : Ent) (outSz : Nat) :
    Views (entValue buf e outSz) := by
  refine Views.ite (Views.ret _) (Views.ite (Views.ret _) (Views.ite (Views.fail _) ?_))
  refine (Views.readBlob _ _).attempt.bind fun o => ?_
  cases o with
  | ok bytes => exact Views.ite (Views.ret _) (Views.fail _)
  | error e => exact Views.fail _

theorem kvhashGet_views (key : List UInt8) (outSz : Nat) : Views (kvhashGet cfg root key outSz) :=
  Views.ite (Views.fail _) (Views.ite (Views.fail _) ((resolveLeaf_views _).bind fun _ =>
    dirBuf_views.bind fun _ => Views.ite (Views.fail _) ((getBkt_views _).bind fun _ =>
      bktBuf_views.bind fun _ => (bktFindIn_views _ _ _ _).bind fun _ => entValue_views _ _ _)))

theorem okeyCmp_views (a c : Okey) : Views (okeyCmp cfg a c) :=
  Views.ite (Views.ret _) (Views.ite (Views.ret _) (keyCmpBytes_views _ _ _ _))

theorem okeyAfter_views (k : Okey) (cursor : Option Okey) : Views (okeyAfter cfg k cursor) := by
  cases cursor with
  | none => exact Views.ret _
  | some c => exact (okeyCmp_views _ _).bind fun _ => Views.ret _

theorem okeyBetter_views (buf : List UInt8) (k : Okey) (best : Option (Nat × Ent)) :
    Views (okeyBetter cfg buf k best) := by
  cases best with
  | none => exact Views.ret _
  | some c => exact (okeyCmp_views _ _).bind fun _ => Views.ret _

theorem bktFirstAfterIn_views (buf : List UInt8) (cursor : Option Okey) (best : Option (Nat × Ent))
    (ents : List (Nat × Ent)) : Views (bktFirstAfterIn cfg buf cursor best ents) := by
  induction ents generalizing best with
  | nil =>
    cases best with
    | none => exact Views.fail _
    | some c => exact Views.ret _
  | cons x ents ih =>
    rw [bktFirstAfterIn]
    exact (okeyAfter_views _ _).bind fun _ => Views.ite (ih _) ((okeyBetter_views _ _ _).bind
      fun _ => Views.ite (ih _) (ih _))

theorem leafFirstAfter_views (k i : Nat) (cursor : Option Okey) :
    Views (leafFirstAfter cfg k i cursor) := by
  induction k generalizing i cursor with
  | zero => exact Views.fail _
  | succ k ih =>
    refine dirBuf_views.bind fun _ => Views.ite (ih _ _) ((getBkt_views _).bind fun _ =>
      bktBuf_views.bind fun _ => (bktFirstAfterIn_views _ _ _ _).attempt.bind fun o => ?_)
    cases o with
    | ok off => exact Views.ret _
    | error e => exact Views.ite (ih _ _) (Views.fail _)

theorem subLoad_views (sub : Nat) : Views (subLoad cfg sub) :=
  Views.ite (Views.fail _) ((dirLoad_views _).bind fun _ =>
    Views.ite (Views.ret _) (Views.fail _))

theorem topChild_views (t : Nat) : Views (topChild cfg root t) :=
  (dirLoad_views _).bind fun _ => Views.ite (Views.fail _) (dirBuf_views.bind fun _ =>
    Views.ret _)

theorem subFirstAfter_views (sub : Nat) (cursor : Option (Okey × UInt32)) :
    Views (subFirstAfter cfg sub cursor) :=
  (subLoad_views _).bind fun _ => leafFirstAfter_views _ _ _

theorem treeFirstAfter_views (k t sub : Nat) (cursor : Option (Okey × UInt32)) :
    Views (treeFirstAfter cfg root k t sub cursor) := by
  induction k generalizing t sub cursor with
  | zero => exact subFirstAfter_views _ _
  | succ k ih =>
    refine (subFirstAfter_views _ _).attempt.bind fun o => ?_
    cases o with
    | ok off => exact Views.ret _
    | error e => exact Views.ite ((topChild_views _).bind fun _ => ih _ _ _) (Views.fail _)

theorem nextEntry_views (off koutSz voutSz : Nat) : Views (nextEntry cfg off koutSz voutSz) := by
  refine bktBuf_views.bind fun buf => ?_
  split
  . exact Views.fail _
  . refine Views.ite (Views.ret _) ((keyChunk_views _ _ _).bind fun _ =>
      (entValue_views _ _ _).bind fun f => ?_)
    cases f with
    | value bytes => exact Views.ret _
    | tooSmall len => exact Views.ret _

theorem kvhashNext_views (key : List UInt8) (koutSz voutSz : Nat) :
    Views (kvhashNext cfg root key koutSz voutSz) :=
  Views.ite (Views.fail _) ((dirLoad_views _).bind fun _ => Views.ite
    ((leafFirstAfter_views _ _ _).bind fun _ => nextEntry_views _ _ _)
    (dirBuf_views.bind fun _ => (treeFirstAfter_views _ _ _ _).bind fun _ =>
      nextEntry_views _ _ _))

theorem leafCount_views (k i acc : Nat) : Views (leafCount cfg k i acc) := by
  induction k generalizing i acc with
  | zero => exact Views.ret _
  | succ k ih =>
    exact dirBuf_views.bind fun _ => Views.ite (ih _ _) ((getBkt_views _).bind fun _ =>
      bktBuf_views.bind fun _ => ih _ _)

theorem treeCount_views (k t acc : Nat) : Views (treeCount cfg root k t acc) := by
  induction k generalizing t acc with
  | zero => exact Views.ret _
  | succ k ih =>
    exact (topChild_views _).bind fun _ => (subLoad_views _).bind fun _ =>
      (leafCount_views _ _ _).bind fun _ => ih _ _

theorem kvhashCount_views : Views (kvhashCount cfg root) :=
  (dirLoad_views _).bind fun _ => Views.ite (leafCount_views _ _ _)
    (dirBuf_views.bind fun _ => (subLoad_views _).bind fun _ =>
      (leafCount_views _ _ _).bind fun _ => treeCount_views _ _ _)

theorem kvhashStat_views : Views (kvhashStat cfg root) :=
  (dirLoad_views root).bind fun _ => Views.ite (Views.ret _) (dirBuf_views.bind fun _ =>
    Views.ite (Views.fail _) ((dirLoad_views _).bind fun _ => Views.ret _))

/-! Writing -/

theorem kvUpdate_client (id : Nat) (payload : List UInt8) :
    Client cfg.toStoreCfg (kvUpdate cfg id payload) := Client.blobDbUpdate _ _

theorem releasePart_client (id : Nat) : Client cfg.toStoreCfg (releasePart id) :=
  Client.ite (Client.ret _) ((Client.blobDbDelete _).attempt.bind fun _ => Client.ret _)

theorem createSubs_client (nSub k i : Nat) : Client cfg.toStoreCfg (createSubs cfg nSub k i) := by
  induction k generalizing i with
  | zero => exact Client.ret _
  | succ k ih =>
    exact Client.blobDbAllocId.bind fun _ => Client.ite (Client.fail _) (Client.after bktBuf_views fun _ =>
      (kvUpdate_client _ _).bind fun _ => Client.after (setDirBuf_views _) fun _ => ih _)

theorem kvhashCreate_client (mc : Option MapConfig) : Client cfg.toStoreCfg (kvhashCreate cfg root mc) := by
  rw [kvhashCreate]
  cases deriveGeometry cfg mc with
  | none => exact Client.cut
  | some r =>
    cases r with
    | error e => exact Client.fail _
    | ok geo =>
      exact Client.ite
        (Client.after (setDirBuf_views _) fun _ => Client.after dirBuf_views fun _ => kvUpdate_client _ _)
        (Client.after (setDirBuf_views _) fun _ => Client.after (setBktBuf_views _) fun _ =>
          (createSubs_client _ _ _).bind fun _ => Client.after dirBuf_views fun _ => kvUpdate_client _ _)

theorem setUndo_client (vid kid : Nat) (e : Errno) : Client cfg.toStoreCfg (setUndo vid kid e) :=
  (releasePart_client _).bind fun _ => (releasePart_client _).bind fun _ => Client.fail _

theorem setCommit_client (leaf : Leaf) (bid used : Nat) (bytes : List UInt8) :
    Client cfg.toStoreCfg (setCommit cfg leaf bid used bytes) :=
  Client.after (setBktBuf_views _) fun _ => Client.after bktBuf_views fun _ => Client.ite (kvUpdate_client _ _)
    (Client.blobDbAllocId.bind fun _ => Client.ite (Client.fail _)
      ((kvUpdate_client _ _).bind fun _ => Client.after (setDirBuf_views _) fun _ =>
        Client.after dirBuf_views fun _ => kvUpdate_client _ _))

theorem setKeyBlob_client (key : List UInt8) (p : Placement) (old : Option Replaced) :
    Client cfg.toStoreCfg (setKeyBlob cfg key p old) :=
  Client.ite (Client.blobDbAllocId.bind fun _ => Client.ite (Client.fail _)
    ((kvUpdate_client _ _).bind fun _ => Client.ret _)) (Client.ret _)

theorem setValBlob_client (val : List UInt8) (p : Placement) : Client cfg.toStoreCfg (setValBlob cfg val p) :=
  Client.ite (Client.blobDbAllocId.bind fun _ => Client.ite (Client.fail _)
    ((kvUpdate_client _ _).bind fun _ => Client.ret _)) (Client.ret _)

theorem setRelease_client (old : Option Replaced) (kid : Nat) : Client cfg.toStoreCfg (setRelease old kid) :=
  (Client.when (releasePart_client _)).bind fun _ => releasePart_client _

theorem setEntry_client (leaf : Leaf) (key val : List UInt8) (p : Placement) (bid used : Nat)
    (old : Option Replaced) : Client cfg.toStoreCfg (setEntry cfg leaf key val p bid used old) := by
  refine Client.ite (Client.fail _) ((setKeyBlob_client _ _ _).bind fun x => ?_)
  refine (setValBlob_client _ _).attempt.bind fun o => ?_
  cases o with
  | error e => exact setUndo_client _ _ _
  | ok vid =>
    refine (setCommit_client _ _ _ _).attempt.bind fun o => ?_
    cases o with
    | error e => exact setUndo_client _ _ _
    | ok u => exact setRelease_client _ _

theorem setInBucket_client (leaf : Leaf) (key val : List UInt8) (p : Placement) (bid : Nat) :
    Client cfg.toStoreCfg (setInBucket cfg leaf key val p bid) := by
  refine Client.after (getBkt_views _) fun used => Client.after bktBuf_views fun buf => ?_
  refine (bktFindIn_views _ _ _ _).client.attempt.bind fun o => ?_
  cases o with
  | ok hit =>
    exact Client.ite (Client.ite (Client.fail _) (kvUpdate_client _ _))
      (Client.after (setBktBuf_views _) fun _ => setEntry_client _ _ _ _ _ _ _)
  | error e => exact Client.ite (setEntry_client _ _ _ _ _ _ _) (Client.fail _)

theorem kvhashSet_client (key val : List UInt8) : Client cfg.toStoreCfg (kvhashSet cfg root key val) :=
  Client.ite (Client.fail _) (Client.ite (Client.fail _) (Client.after (resolveLeaf_views _) fun _ =>
    Client.getRam.bind fun _ => Client.ite (Client.fail _)
      (Client.ite (setEntry_client _ _ _ _ _ _ _) (setInBucket_client _ _ _ _ _))))

theorem kvhashDel_client (key : List UInt8) : Client cfg.toStoreCfg (kvhashDel cfg root key) :=
  Client.ite (Client.fail _) (Client.ite (Client.fail _) (Client.after (resolveLeaf_views _) fun _ =>
    Client.after dirBuf_views fun _ => Client.ite (Client.fail _) (Client.after (getBkt_views _) fun _ =>
      Client.after bktBuf_views fun _ => Client.after (bktFindIn_views _ _ _ _) fun _ =>
        Client.after (setBktBuf_views _) fun _ => Client.after bktBuf_views fun _ => (kvUpdate_client _ _).bind
          fun _ => (releasePart_client _).bind fun _ => releasePart_client _)))

/-! Destroying -/

theorem releaseIds_clears (ids : List Nat) (err : Option Errno) :
    Clears (releaseIds ids err) := by
  induction ids generalizing err with
  | nil => exact Clears.ret _
  | cons id ids ih =>
    exact Clears.ite (ih _) ((Clears.blobDbDelete id).attempt.bind fun _ => ih _)

theorem releaseBucket_clears (bid : Nat) :
    Clears (releaseBucket cfg bid) := by
  refine (getBkt_views bid).clears.attempt.bind fun o => ?_
  cases o with
  | error e => exact Clears.ite (Clears.ret _) (Clears.fail _)
  | ok used =>
    refine bktBuf_views.clears.bind fun buf => (releaseIds_clears _ _).bind fun err => ?_
    cases err with
    | some e => exact Clears.fail _
    | none =>
      refine (Clears.blobDbDelete bid).attempt.bind fun o => ?_
      cases o with
      | ok u => exact Clears.ret _
      | error e => exact Clears.ite (Clears.ret _) (Clears.fail _)

theorem releaseBuckets_clears (k i : Nat) (err : Option Errno) :
    Clears (releaseBuckets cfg k i err) := by
  induction k generalizing i err with
  | zero => exact Clears.ret _
  | succ k ih =>
    refine dirBuf_views.clears.bind fun dir => Clears.ite (ih _ _) ?_
    refine (releaseBucket_clears _).attempt.bind fun o => ?_
    cases o <;> exact ih _ _

theorem releaseSub_clears (root i : Nat) :
    Clears (releaseSub cfg root i) := by
  refine (dirLoadRaw_views root).clears.attempt.bind fun o => ?_
  cases o with
  | error e => exact Clears.ret _
  | ok d =>
    refine Clears.ite (Clears.ret _) (dirBuf_views.clears.bind fun dir =>
      Clears.ite (Clears.ret _) ?_)
    refine (dirLoadRaw_views _).clears.attempt.bind fun o => ?_
    cases o with
    | error e => exact Clears.ret _
    | ok d =>
      refine (releaseBuckets_clears _ _ _).bind fun err => ?_
      cases err with
      | some e => exact Clears.ret _
      | none => exact (Clears.blobDbDelete _).attempt.bind fun _ => Clears.ret _

theorem releaseSubs_clears (root k i : Nat) (err : Option Errno) :
    Clears (releaseSubs cfg root k i err) := by
  induction k generalizing i err with
  | zero => exact Clears.ret _
  | succ k ih => exact (releaseSub_clears root i).bind fun _ => ih _ _

theorem stampDying_client (n : Nat) : Client cfg.toStoreCfg (stampDying cfg root n) :=
  Client.after (setDirBuf_views _) fun _ => Client.after dirBuf_views fun _ => kvUpdate_client _ _

theorem kvhashDestroy_client : Client cfg.toStoreCfg (kvhashDestroy cfg root) := by
  refine Client.after (dirLoadRaw_views root) fun d => (Client.when (stampDying_client d.n)).bind fun _ => ?_
  refine Client.ite ((releaseBuckets_clears _ _ _).client.bind ?hend)
    ((releaseSubs_clears _ _ _ _).client.bind ?hend)
  intro err
  cases err with
  | some e => exact Client.fail _
  | none => exact Client.blobDbDelete _

/-! Nothing but the store loses power -/

theorem dirBuf_uncut : Uncut dirBuf := Uncut.getRam.bind fun _ => Uncut.ret _

theorem bktBuf_uncut : Uncut bktBuf := Uncut.getRam.bind fun _ => Uncut.ret _

theorem setDirBuf_uncut (f : List UInt8 → List UInt8) : Uncut (setDirBuf f) :=
  Uncut.getRam.bind fun _ => Uncut.putRam _

theorem setBktBuf_uncut (f : List UInt8 → List UInt8) : Uncut (setBktBuf f) :=
  Uncut.getRam.bind fun _ => Uncut.putRam _

theorem getBkt_uncut (id : Nat) : Uncut (getBkt cfg id) :=
  (Uncut.blobDbGet _ _).bind fun _ => (setBktBuf_uncut _).bind fun _ => Uncut.ret _

theorem dirLoadRaw_uncut (id : Nat) : Uncut (dirLoadRaw cfg id) :=
  ((Uncut.blobDbGet _ _).bind fun _ => (setDirBuf_uncut _).bind fun _ => Uncut.ret _).bind
    fun _ => dirBuf_uncut.bind fun _ => Uncut.ofExcept _

theorem dirLoad_uncut (id : Nat) : Uncut (dirLoad cfg id) :=
  (dirLoadRaw_uncut id).bind fun _ => Uncut.ite (Uncut.fail _) (Uncut.ret _)

theorem kvhashStat_uncut : Uncut (kvhashStat cfg root) :=
  (dirLoad_uncut root).bind fun _ => Uncut.ite (Uncut.ret _) (dirBuf_uncut.bind fun _ =>
    Uncut.ite (Uncut.fail _) ((dirLoad_uncut _).bind fun _ => Uncut.ret _))

theorem releaseIds_uncut (ids : List Nat) (err : Option Errno) : Uncut (releaseIds ids err) := by
  induction ids generalizing err with
  | nil => exact Uncut.ret _
  | cons id ids ih => exact Uncut.ite (ih _) ((Uncut.blobDbDelete id).attempt.bind fun _ => ih _)

theorem releaseBucket_uncut (bid : Nat) : Uncut (releaseBucket cfg bid) := by
  refine (getBkt_uncut bid).attempt.bind fun o => ?_
  cases o with
  | error e => exact Uncut.ite (Uncut.ret _) (Uncut.fail _)
  | ok used =>
    refine bktBuf_uncut.bind fun buf => (releaseIds_uncut _ _).bind fun err => ?_
    cases err with
    | some e => exact Uncut.fail _
    | none =>
      refine (Uncut.blobDbDelete bid).attempt.bind fun o => ?_
      cases o with
      | ok u => exact Uncut.ret _
      | error e => exact Uncut.ite (Uncut.ret _) (Uncut.fail _)

theorem releaseBuckets_uncut (k i : Nat) (err : Option Errno) : Uncut (releaseBuckets cfg k i err) := by
  induction k generalizing i err with
  | zero => exact Uncut.ret _
  | succ k ih =>
    refine dirBuf_uncut.bind fun dir => Uncut.ite (ih _ _) ?_
    refine (releaseBucket_uncut _).attempt.bind fun o => ?_
    cases o <;> exact ih _ _

theorem releaseSub_uncut (root i : Nat) : Uncut (releaseSub cfg root i) := by
  refine (dirLoadRaw_uncut root).attempt.bind fun o => ?_
  cases o with
  | error e => exact Uncut.ret _
  | ok d =>
    refine Uncut.ite (Uncut.ret _) (dirBuf_uncut.bind fun dir => Uncut.ite (Uncut.ret _) ?_)
    refine (dirLoadRaw_uncut _).attempt.bind fun o => ?_
    cases o with
    | error e => exact Uncut.ret _
    | ok d =>
      refine (releaseBuckets_uncut _ _ _).bind fun err => ?_
      cases err with
      | some e => exact Uncut.ret _
      | none => exact (Uncut.blobDbDelete _).attempt.bind fun _ => Uncut.ret _

theorem releaseSubs_uncut (root k i : Nat) (err : Option Errno) : Uncut (releaseSubs cfg root k i err) := by
  induction k generalizing i err with
  | zero => exact Uncut.ret _
  | succ k ih => exact (releaseSub_uncut root i).bind fun _ => ih _ _

theorem kvhashDestroy_uncut : Uncut (kvhashDestroy cfg root) := by
  have hstamp : ∀ n, Uncut (stampDying cfg root n) := fun n =>
    (setDirBuf_uncut _).bind fun _ => dirBuf_uncut.bind fun _ => Uncut.blobDbUpdate _ _ _
  refine (dirLoadRaw_uncut root).bind fun d => (Uncut.when (hstamp d.n)).bind fun _ => ?_
  refine Uncut.ite ((releaseBuckets_uncut _ _ _).bind ?hend) ((releaseSubs_uncut _ _ _ _).bind ?hend)
  intro err
  cases err with
  | some e => exact Uncut.fail _
  | none => exact Uncut.blobDbDelete _

end KeyValueDb.Containers
