import Mathlib.Algebra.BigOperators.Group.List.Basic
import KeyValueDb.Containers.MapStore

/-!
The store of maps and blobs where power can be lost and nothing else goes wrong: reads answer what is
bound, and a write either returns or is the last thing that happens, with or without its effect.
-/

namespace KeyValueDb.Containers

-- Power may be lost, but no error is returned.
def Fate.Powered : Fate → Prop
  | .fail _ _ => False
  | _ => True

-- The allocations to come do not fail, and `k` more than they need to skip can be handed out.
def MapStore.Spare (s : MapStore) (k : Nat) : Prop :=
  none ∉ s.allocs ∧ s.top + (s.allocs.map fun a => a.getD 0 + 1).sum + k < 2 ^ 64

instance (s : MapStore) (k : Nat) : Decidable (s.Spare k) := inferInstanceAs (Decidable (_ ∧ _))

-- `b` is bound and `top` is the highest id. There are `k` ids to spare, or else `φ`.
structure AtRest (b : Items) (top k : Nat) (φ : Prop) (s : MapStore) : Prop where
  items : s.items = b
  top : s.top = top
  faults : s.faults = []
  fates : ∀ f ∈ s.fates, f.Powered
  spare : s.Spare k ∨ φ

-- What a loss of power in a write leaves.
def Parted (b b' : Items) (top : Nat) (s : MapStore) : Prop := (s.items = b ∨ s.items = b') ∧ s.top = top

-- A write, of `b'` for `b`.
def rewrites (b b' : Items) (top k : Nat) (φ : Prop) : Post MapStore Errno Unit where
  ok _ := AtRest b' top k φ
  err _ _ := False
  cut := Parted b b' top

variable {H : Hypothesis MapStore} {α : Type} {b : Items} {top k id root : Nat} {φ : Prop} {s : MapStore}

theorem AtRest.fewer {j : Nat} (h : AtRest b top k φ s) (hj : j ≤ k) : AtRest b top j φ s := by
  refine ⟨h.items, h.top, h.faults, h.fates, ?_⟩
  rcases h.spare with ⟨hsome, hlt⟩ | hφ
  . exact .inl ⟨hsome, by omega⟩
  . exact .inr hφ

/-! Reads -/

theorem says_readItem {f : Option Item → Out Errno α} {r : Except Errno α} (hf : f (b id) = .of r) :
    Says (AtRest b top k φ) (readItem id f) r := by
  intro s h
  have hread : s.readDone = s := by
    unfold MapStore.readDone
    rw [h.faults, List.tail_nil, ← h.faults]
  simp only [readItem, h.faults, List.headD_nil, hread, h.items, hf]

theorem says_blobGet {data : List UInt8} {outSz : Nat} (hb : b id = some (.blob data))
    (hlen : data.length ≤ outSz) : Says (AtRest b top k φ) (blobGet id outSz) (.ok data) := by
  apply says_readItem
  rw [hb]
  exact if_pos hlen

theorem says_blobGet_none {outSz : Nat} (hb : b id = none) :
    Says (AtRest b top k φ) (blobGet id outSz) (.error Errno.ENOENT) := by
  apply says_readItem
  rw [hb]
  rfl

theorem says_blobSize {data : List UInt8} (hb : b id = some (.blob data)) :
    Says (AtRest b top k φ) (blobSize id) (.ok data.length) := by
  apply says_readItem
  rw [hb]
  rfl

theorem says_payload {data : List UInt8} (hb : b id = some (.blob data)) :
    Says (AtRest b top k φ) (readItem id payloadOf) (.ok data) := by
  apply says_readItem
  rw [hb]
  rfl

theorem says_blobRead {data : List UInt8} (hb : b id = some (.blob data)) (off len : Nat) :
    Says (AtRest b top k φ) (blobRead id off len) (.ok ((data.drop off).take len)) :=
  (says_payload hb).bind (Says.ret _)

theorem says_mapLoad {es : Entries} (hb : b root = some (.map es)) :
    Says (AtRest b top k φ) (mapLoad root) (.ok es) := by
  apply says_readItem
  rw [hb]
  rfl

-- A key that a map can hold.
def Keyed (key : List UInt8) : Prop := key ≠ [] ∧ key.length ≤ entLenMask

theorem Keyed.length {key : List UInt8} (h : Keyed key) : ¬ (key.length = 0 ∨ 0xffff < key.length) := by
  have hlen := h.2
  have hpos := List.length_pos_iff.mpr h.1
  simp only [entLenMask] at hlen
  omega

theorem says_mapGet {es : Entries} (hb : b root = some (.map es)) {key : List UInt8} (hkey : Keyed key)
    {outSz : Nat} (hfit : ∀ val, es.lookup key = some val → val.length ≤ outSz) :
    Says (AtRest b top k φ) (mapGet root key outSz)
      (match es.lookup key with
        | some val => .ok val
        | none => .error Errno.ENOENT) := by
  unfold mapGet
  rw [if_neg hkey.length, if_neg (Nat.not_lt.mpr hkey.2)]
  apply (says_mapLoad hb).bind
  cases hval : es.lookup key with
  | none => exact Says.fail _
  | some val =>
    simp only [if_pos (hfit val hval)]
    exact Says.ret val

theorem says_mapFirst {es : Entries} (hb : b root = some (.map es)) :
    Says (AtRest b top k φ) (mapFirst root)
      (.error (if es.entries = [] then Errno.ENODATA else Errno.ENOMEM)) := by
  apply (says_mapLoad hb).bind
  split <;> exact Says.fail _

/-! Writes -/

theorem writeItem_rewrites (id : Nat) (item : Option Item) :
    Spec H (AtRest b top k φ) (writeItem id item) (rewrites b (Function.update b id item) top k φ) := by
  intro s h _
  have hfate : s.nextFate.Powered := by
    unfold MapStore.nextFate
    cases hf : s.fates with
    | nil => trivial
    | cons f fs => exact h.fates f (hf ▸ List.mem_cons_self)
  have hrest : ∀ f ∈ s.fates.tail, f.Powered := fun f hf => h.fates f (List.mem_of_mem_tail hf)
  simp only [writeItem]
  cases hf : s.nextFate with
  | done =>
    refine ⟨?_, h.top, h.faults, hrest, h.spare⟩
    simp only [MapStore.write, Fate.landed, if_true, h.items]
  | fail f landed =>
    rw [hf] at hfate
    exact hfate.elim
  | cut landed =>
    refine ⟨?_, h.top⟩
    cases landed with
    | true => exact .inr (by simp only [MapStore.write, Fate.landed, if_true, h.items])
    | false => exact .inl h.items

theorem blobUpdate_rewrites (id : Nat) (data : List UInt8) :
    Spec H (AtRest b top k φ) (blobUpdate id data)
      (rewrites b (Function.update b id (some (.blob data))) top k φ) :=
  writeItem_rewrites id _

theorem blobDelete_rewrites {item : Item} (hb : b id = some item) :
    Spec H (AtRest b top k φ) (blobDelete id) (rewrites b (Function.update b id none) top k φ) := by
  have hbound : Says (AtRest b top k φ) (readItem id fun item => .ok item.isSome) (.ok true) := by
    apply says_readItem
    rw [hb]
    rfl
  apply hbound.rule_ok
  exact writeItem_rewrites id none

theorem blobWrite_rewrites {data : List UInt8} (hb : b id = some (.blob data)) (off : Nat)
    {buf : List UInt8} (hbuf : buf ≠ []) :
    Spec H (AtRest b top k φ) (blobWrite id off buf)
      (rewrites b (Function.update b id (some (.blob (overwritten data off buf)))) top k φ) := by
  apply (says_payload hb).rule_ok
  rw [if_neg hbuf]
  exact writeItem_rewrites id _

theorem mapSet_rewrites {es : Entries} (hb : b root = some (.map es)) {key val : List UInt8}
    (hkey : Keyed key) (hval : val.length ≤ entLenMask) :
    Spec H (AtRest b top k φ) (mapSet root key val)
      (rewrites b (Function.update b root (some (.map (es.insert key val)))) top k φ) := by
  have hlen := hkey.2
  have hkey' := hkey.length
  unfold mapSet
  simp only [entLenMask] at hlen hval
  rw [if_neg (by omega), if_neg (by simp only [entLenMask]; omega)]
  apply (says_mapLoad hb).rule_ok
  exact writeItem_rewrites root _

theorem mapDel_rewrites {es : Entries} (hb : b root = some (.map es)) {key : List UInt8} (hkey : Keyed key)
    (hsome : (es.lookup key).isSome = true) :
    Spec H (AtRest b top k φ) (mapDel root key)
      (rewrites b (Function.update b root (some (.map (es.erase key)))) top k φ) := by
  unfold mapDel
  rw [if_neg hkey.length, if_neg (Nat.not_lt.mpr hkey.2)]
  apply (says_mapLoad hb).rule_ok
  rw [if_pos hsome]
  exact writeItem_rewrites root _

theorem mapDestroy_rewrites {es : Entries} (hb : b root = some (.map es)) :
    Spec H (AtRest b top k φ) (mapDestroy root) (rewrites b (Function.update b root none) top k φ) := by
  apply (says_mapLoad hb).rule_ok
  exact writeItem_rewrites root none

/-! Ids -/

-- An id that was never handed out, or none, and then `φ`.
theorem allocId_fresh :
    Spec H (AtRest b top (k + 1) φ) allocId
      ⟨fun id s => if id = 0 then φ ∧ AtRest b top k φ s
          else top < id ∧ id < 2 ^ 64 ∧ AtRest b id k φ s,
        fun _ _ => False, fun _ => False⟩ := by
  intro s h _
  have hleft : ∀ gap, s.allocs.headD (some 0) = some gap → s.Spare (k + 1) →
      s.top + 1 + gap < 2 ^ 64 ∧
        none ∉ s.allocs.tail ∧ s.top + 1 + gap + (s.allocs.tail.map fun a => a.getD 0 + 1).sum + k < 2 ^ 64 := by
    rintro gap hgap ⟨hsome, hlt⟩
    cases ha : s.allocs with
    | nil =>
      rw [ha] at hgap hlt
      cases hgap
      simp at hlt ⊢
      omega
    | cons a as =>
      rw [ha] at hgap hlt hsome
      simp only [List.headD_cons] at hgap
      subst hgap
      simp only [List.map_cons, List.sum_cons, Option.getD_some, List.mem_cons, not_or, List.tail_cons]
        at hlt hsome ⊢
      refine ⟨?_, hsome.2, ?_⟩ <;> omega
  simp only [allocId]
  split
  . next hnone =>
    have hφ : φ := by
      rcases h.spare with hs | hφ
      . exfalso
        apply hs.1
        cases ha : s.allocs with
        | nil =>
          rw [ha] at hnone
          cases hnone
        | cons a as =>
          rw [ha, List.headD_cons] at hnone
          rw [hnone]
          exact List.mem_cons_self
      . exact hφ
    exact ⟨hφ, h.items, h.top, h.faults, h.fates, .inr hφ⟩
  . next gap hgap =>
    split
    . next hlt =>
      have hne : s.top + 1 + gap ≠ 0 := by omega
      show if s.top + 1 + gap = 0 then _ else _
      rw [if_neg hne, ← h.top]
      refine ⟨by omega, hlt, h.items, rfl, h.faults, h.fates, ?_⟩
      exact h.spare.imp_left fun hs => (hleft gap hgap hs).2
    . next hge =>
      have hφ : φ := h.spare.resolve_left fun hs => hge (hleft gap hgap hs).1
      exact ⟨hφ, h.items, h.top, h.faults, h.fates, .inr hφ⟩

end KeyValueDb.Containers
