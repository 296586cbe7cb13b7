import KeyValueDb.BlobDb.SlotIndex

/-!
What the operations of the slot index do to its cursors, and to what its cells say.
-/

namespace KeyValueDb.BlobDb

/-! Cursors -/

variable {cfg : Cfg} {bid b : Nat} {t t' : SlotIndex}

theorem cursorOf_congr (hc : t'.cursor bid = t.cursor bid) (hn : t'.nBuckets = t.nBuckets) :
    t'.cursorOf bid = t.cursorOf bid := by
  unfold SlotIndex.cursorOf SlotIndex.on
  rw [hc, hn]

theorem cursorOf_none (h : t.cursor bid = 0) : t.cursorOf bid = none := by
  simp [SlotIndex.cursorOf, h]

theorem closeGap_cursor (n : Nat) (t : SlotIndex) (i j : Nat) :
    (SlotIndex.closeGap cfg n t i j).cursor = t.cursor ∧
      (SlotIndex.closeGap cfg n t i j).nBuckets = t.nBuckets := by
  induction n generalizing t i j with
  | zero => exact ⟨rfl, rfl⟩
  | succ n ih =>
    unfold SlotIndex.closeGap
    simp only
    split
    . exact ⟨rfl, rfl⟩
    . split
      . exact ih _ _ _
      . exact ih _ _ _

theorem removeAt_cursor (t : SlotIndex) (i : Nat) :
    (SlotIndex.removeAt cfg t i).cursor = t.cursor ∧
      (SlotIndex.removeAt cfg t i).nBuckets = t.nBuckets :=
  closeGap_cursor _ _ _ _

theorem put_cursor (t : SlotIndex) (id off : Nat) :
    (SlotIndex.put cfg t id off).cursor = t.cursor ∧
      (SlotIndex.put cfg t id off).nBuckets = t.nBuckets := by
  unfold SlotIndex.put
  split
  next i present _ =>
    split
    . exact ⟨rfl, rfl⟩
    . split <;> exact ⟨rfl, rfl⟩

theorem drop_cursor (t : SlotIndex) (id : Nat) :
    (SlotIndex.drop cfg t id).cursor = t.cursor ∧
      (SlotIndex.drop cfg t id).nBuckets = t.nBuckets := by
  unfold SlotIndex.drop
  split
  . exact removeAt_cursor _ _
  . exact ⟨rfl, rfl⟩

theorem forgetFrom_cursor (n : Nat) (t : SlotIndex) (i : Nat) :
    (SlotIndex.forgetFrom cfg bid n t i).cursor = t.cursor ∧
      (SlotIndex.forgetFrom cfg bid n t i).nBuckets = t.nBuckets := by
  induction n generalizing t i with
  | zero => exact ⟨rfl, rfl⟩
  | succ n ih =>
    unfold SlotIndex.forgetFrom
    split
    . split
      . rw [(ih _ _).1, (ih _ _).2]
        exact removeAt_cursor _ _
      . exact ih _ _
    . exact ⟨rfl, rfl⟩

theorem forget_cursor (t : SlotIndex) (bid b : Nat) :
    (t.forget cfg bid).cursorOf b = if b = bid then none else t.cursorOf b := by
  unfold SlotIndex.forget
  split
  . next hon =>
    have hf : _ ∧ _ := @forgetFrom_cursor cfg bid (2 * SlotIndex.cap cfg)
      { t with cursor := SlotIndex.set t.cursor bid 0 } 0
    rw [cursorOf_congr (t := { t with cursor := SlotIndex.set t.cursor bid 0 }) (by rw [hf.1]) hf.2]
    split
    . next hb =>
      apply cursorOf_none
      simp [SlotIndex.set, hb]
    . next hb =>
      apply cursorOf_congr
      . simp [SlotIndex.set, hb]
      . rfl
  . next hoff =>
    split
    . next hb =>
      simp only [SlotIndex.cursorOf, hb]
      rw [Bool.not_eq_true] at hoff
      simp [hoff]
    . rfl

theorem begin_cursor (t : SlotIndex) {bid b : Nat} (dataOff : Nat) (hb : b ≠ bid) :
    (t.begin cfg bid dataOff).cursorOf b = t.cursorOf b := by
  unfold SlotIndex.begin
  split
  . have hsame : SlotIndex.cursorOf { t.forget cfg bid with
        cursor := SlotIndex.set (t.forget cfg bid).cursor bid dataOff } b =
        (t.forget cfg bid).cursorOf b := by
      apply cursorOf_congr
      . simp [SlotIndex.set, hb]
      . rfl
    rw [hsame, forget_cursor, if_neg hb]
  . rfl

-- A note says nothing of a bucket that is not known, and nothing of another one.
theorem note_cursor (id off size : Nat) (tombstone : Bool) (h : t.cursorOf b = none) :
    (t.note cfg bid id off size tombstone).cursorOf b = none := by
  unfold SlotIndex.note
  split
  . exact h
  . next hknown =>
    have hb : b ≠ bid := by
      rintro rfl
      unfold SlotIndex.cursorOf at h
      rw [if_neg hknown] at h
      cases h
    split
    . rw [forget_cursor, if_neg hb]
      exact h
    . have hset : SlotIndex.set t.cursor bid ((off + size) % 2 ^ 32) b = t.cursor b := by
        simp [SlotIndex.set, hb]
      simp only
      split
      . rw [← h]
        apply cursorOf_congr
        . rw [(drop_cursor _ _).1]
          exact hset
        . rw [(drop_cursor _ _).2]
      . rw [← h]
        apply cursorOf_congr
        . rw [(put_cursor _ _ _).1]
          exact hset
        . rw [(put_cursor _ _ _).2]

/-! Cells -/

-- A cell of the table gives `off` as the offset of the slot of `id`.
def SlotIndex.Cell (t : SlotIndex) (id off : Nat) : Prop :=
  id ≠ 0 ∧ ∃ i, t.ids i = id ∧ t.offs i = off

variable {id off : Nat}

theorem find_cell {i : Nat} (hid : id ≠ 0) (h : SlotIndex.find cfg t id = some i) :
    t.Cell id (t.offs i) := by
  have hfrom : ∀ n k, SlotIndex.findFrom cfg t id n k = some i → t.ids i = id := by
    intro n
    induction n with
    | zero =>
      intro k hk
      cases hk
    | succ n ih =>
      intro k hk
      unfold SlotIndex.findFrom at hk
      split at hk
      . next heq =>
        cases hk
        exact heq
      . split at hk
        . cases hk
        . exact ih _ hk
  exact ⟨hid, i, hfrom _ _ h, rfl⟩

theorem closeGap_cell {n i j : Nat} (h : (SlotIndex.closeGap cfg n t i j).Cell id off) :
    t.Cell id off := by
  induction n generalizing t i j with
  | zero => exact h
  | succ n ih =>
    unfold SlotIndex.closeGap at h
    simp only at h
    split at h
    . exact h
    . split at h
      . exact ih h
      . obtain ⟨hid, k, hk, ho⟩ := ih h
        refine ⟨hid, ?_⟩
        simp only [SlotIndex.set] at hk ho
        split at hk
        . exact absurd hk.symm hid
        . split at hk
          . next hki =>
            rw [if_pos hki] at ho
            exact ⟨_, hk, ho⟩
          . next hki =>
            rw [if_neg hki] at ho
            exact ⟨k, hk, ho⟩

theorem removeAt_cell {i : Nat} (h : (SlotIndex.removeAt cfg t i).Cell id off) : t.Cell id off := by
  unfold SlotIndex.removeAt at h
  obtain ⟨hid, k, hk, ho⟩ := closeGap_cell h
  refine ⟨hid, k, ?_, ho⟩
  simp only [SlotIndex.set] at hk
  split at hk
  . exact absurd hk.symm hid
  . exact hk

theorem putCell_present {n i k : Nat} (h : SlotIndex.putCell cfg t id n k = (i, true)) :
    t.ids i = id := by
  induction n generalizing k with
  | zero => cases h
  | succ n ih =>
    unfold SlotIndex.putCell at h
    split at h
    . next heq =>
      cases h
      exact heq
    . split at h
      . cases h
      . exact ih h

theorem put_cell {id' off' : Nat} (h : (SlotIndex.put cfg t id' off').Cell id off) :
    t.Cell id off ∨ (id = id' ∧ off = off') := by
  unfold SlotIndex.put at h
  split at h
  next i present hput =>
    split at h
    . next hpresent =>
      obtain ⟨hid, k, hk, ho⟩ := h
      simp only [SlotIndex.set] at hk ho
      split at ho
      . next hki =>
        subst hki
        rw [hpresent] at hput
        exact .inr ⟨hk.symm.trans (putCell_present hput), ho.symm⟩
      . exact .inl ⟨hid, k, hk, ho⟩
    . split at h
      . exact .inl h
      . obtain ⟨hid, k, hk, ho⟩ := h
        simp only [SlotIndex.set] at hk ho
        split at hk
        . next hki =>
          rw [if_pos hki] at ho
          exact .inr ⟨hk.symm, ho.symm⟩
        . next hki =>
          rw [if_neg hki] at ho
          exact .inl ⟨hid, k, hk, ho⟩

theorem forget_cell (h : (t.forget cfg bid).Cell id off) : t.Cell id off := by
  have hfrom : ∀ n (t : SlotIndex) i, (SlotIndex.forgetFrom cfg bid n t i).Cell id off →
      t.Cell id off := by
    intro n
    induction n with
    | zero => exact fun _ _ h => h
    | succ n ih =>
      intro t i h
      unfold SlotIndex.forgetFrom at h
      split at h
      . split at h
        . exact removeAt_cell (ih _ _ h)
        . exact ih _ _ h
      . exact h
  unfold SlotIndex.forget at h
  split at h
  . obtain ⟨hid, k, hk, ho⟩ := hfrom _ _ _ h
    exact ⟨hid, k, hk, ho⟩
  . exact h

theorem forget_nBuckets (t : SlotIndex) (bid : Nat) : (t.forget cfg bid).nBuckets = t.nBuckets := by
  unfold SlotIndex.forget
  split
  . exact (forgetFrom_cursor _ _ _).2
  . rfl

-- A lesson adds the cell it is about and the cursor it names, or makes the bucket forgotten.
theorem learn_cell {id' cursor : Nat} {o : Option Nat}
    (h : (t.learn cfg bid id' o cursor).Cell id off) :
    t.Cell id off ∨ (id = id' ∧ o = some off) := by
  have hset : ∀ t' : SlotIndex, t'.ids = t.ids → t'.offs = t.offs → t'.Cell id off → t.Cell id off := by
    rintro t' hi ho ⟨hid, k, hk, hoff⟩
    rw [hi] at hk
    rw [ho] at hoff
    exact ⟨hid, k, hk, hoff⟩
  unfold SlotIndex.learn at h
  split at h
  . exact .inl h
  . split at h
    . exact .inl (forget_cell h)
    . extract_lets t' at h
      have hsame : t'.ids = t.ids ∧ t'.offs = t.offs := by
        simp only [t']
        split <;> exact ⟨rfl, rfl⟩
      cases o with
      | none => exact .inl (hset t' hsame.1 hsame.2 h)
      | some o =>
        rcases put_cell h with hold | ⟨rfl, rfl⟩
        . exact .inl (hset t' hsame.1 hsame.2 hold)
        . exact .inr ⟨rfl, rfl⟩

theorem learn_nBuckets (t : SlotIndex) (bid id : Nat) (o : Option Nat) (cursor : Nat) :
    (t.learn cfg bid id o cursor).nBuckets = t.nBuckets := by
  unfold SlotIndex.learn
  split
  . rfl
  . split
    . exact forget_nBuckets t bid
    . extract_lets t'
      have hsame : t'.nBuckets = t.nBuckets := by
        simp only [t']
        split <;> rfl
      cases o with
      | none => exact hsame
      | some o => exact (put_cursor _ _ _).2.trans hsame

theorem learn_cursor {id' cursor fin : Nat} {o : Option Nat}
    (h : (t.learn cfg bid id' o cursor).cursorOf b = some fin) :
    t.cursorOf b = some fin ∨ (b = bid ∧ fin = cursor) := by
  unfold SlotIndex.learn at h
  split at h
  . exact .inl h
  . split at h
    . rw [forget_cursor] at h
      split at h
      . cases h
      . exact .inl h
    . extract_lets t' at h
      have hlearned : t'.cursorOf b = some fin := by
        cases o with
        | none => exact h
        | some o =>
          rw [← h]
          exact (cursorOf_congr (by rw [(put_cursor _ _ _).1]) (put_cursor _ _ _).2).symm
      by_cases hfresh : t.cursor bid = 0
      . simp only [t', if_pos hfresh] at hlearned
        by_cases hb : b = bid
        . right
          refine ⟨hb, ?_⟩
          unfold SlotIndex.cursorOf at hlearned
          split at hlearned
          . cases hlearned
          . injection hlearned with hlearned
            simp only [SlotIndex.set, if_pos hb] at hlearned
            exact hlearned.symm
        . left
          rw [← hlearned]
          apply cursorOf_congr
          . simp [SlotIndex.set, hb]
          . rfl
      . simp only [t', if_neg hfresh] at hlearned
        exact .inl hlearned

end KeyValueDb.BlobDb
