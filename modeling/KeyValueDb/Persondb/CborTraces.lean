import KeyValueDb.Persondb.SuperblockCbor

/-!
The decoders with what they write into arrays of fixed size: the fields of a person, the roots that
version 1 collects, the directory of a superblock. Other fields are assigned whole.
-/

namespace KeyValueDb.Persondb

open Cbor Containers Kvdb

inductive Field where
  | name
  | dept
  | title
  | pinHash
  | perm
  | card
  | roots
  | table
  deriving Repr, DecidableEq

-- How many elements the array has.
def Field.count : Field → Nat
  | .perm => permsMax
  | .card => cardsMax
  | .roots => 2
  | .table => sbTablesMax
  | _ => 1

-- The bytes of an element. A root and a table are written whole.
def Field.size : Field → Nat
  | .name => nameMax + 1
  | .dept => deptMax + 1
  | .title => titleMax + 1
  | .pinHash => pinLen
  | .perm => permMax + 1
  | .card => cardLen + 1
  | .roots => 1
  | .table => 1

structure Write where
  field : Field
  index : Nat
  start : Nat
  len : Nat
  deriving Repr, DecidableEq

def Write.Within (w : Write) : Prop :=
  w.index < w.field.count ∧ w.start + w.len ≤ w.field.size

-- A decode that keeps its writes, those before a refusal too.
abbrev Traced := StateT (List Tok) (ExceptT Errno (StateM (List Write)))

def wrote (w : Write) : Traced Unit := fun ts ws => (.ok ((), ts), ws ++ [w])

def quiet {α : Type} (x : SbScan α) : Traced α := fun ts ws => (x ts, ws)

-- copy_tstr
def copyTstr (f : Field) (i : Nat) (s : List UInt8) : Traced CStr :=
  if f.size ≤ s.length then quiet (refuse Errno.EILSEQ)
  else do
    wrote ⟨f, i, 0, s.length⟩
    wrote ⟨f, i, s.length, 1⟩
    pure (ofBytes s)

def textTo (f : Field) (i : Nat) : Traced CStr := do
  match ← quiet (scanned next) with
  | .tstr s => copyTstr f i s
  | _ => quiet (refuse Errno.EILSEQ)

-- The texts up to the end of the list, with room for `room` more elements.
def textsTo (f : Field) : Nat → Traced (List CStr)
  | 0 => do
    if ← quiet (scanned atEnd) then pure [] else quiet (refuse Errno.EILSEQ)
  | room + 1 => do
    if ← quiet (scanned atEnd) then pure []
    else do
      let s ← textTo f (f.count - (room + 1))
      let rest ← textsTo f room
      pure (s :: rest)

def pinTo : Traced Pin := do
  let p ← quiet (scanned pin)
  wrote ⟨.pinHash, 0, 0, pinLen⟩
  pure p

def personTrace : Traced Person := do
  quiet (scanned (token .mapStart))
  quiet (scanned (expect 1))
  let id ← quiet (scanned uint32)
  quiet (scanned (expect 2))
  let name ← textTo .name 0
  quiet (scanned (expect 3))
  let dept ← textTo .dept 0
  quiet (scanned (expect 4))
  let title ← textTo .title 0
  quiet (scanned (expect 5))
  let validFrom ← quiet (scanned uint32)
  quiet (scanned (expect 6))
  let validUntil ← quiet (scanned uint32)
  quiet (scanned (expect 7))
  let pinHash ← pinTo
  quiet (scanned (expect 8))
  quiet (scanned (token .listStart))
  let perms ← textsTo .perm permsMax
  quiet (scanned (token .stop))
  quiet (scanned (expect 9))
  quiet (scanned (token .listStart))
  let cards ← textsTo .card cardsMax
  quiet (scanned (token .stop))
  quiet (scanned (token .stop))
  pure ⟨id, name, dept, title, validFrom, validUntil, pinHash, perms, cards⟩

def rootsTo : Nat → Traced (List UInt64)
  | 0 => do
    if ← quiet (scanned atEnd) then pure [] else quiet (refuse Errno.EILSEQ)
  | room + 1 => do
    if ← quiet (scanned atEnd) then pure []
    else do
      let r ← quiet (scanned uint64)
      wrote ⟨.roots, Field.roots.count - (room + 1), 0, 1⟩
      let rs ← rootsTo room
      pure (r :: rs)

def tablesTo : Nat → Option UInt32 → Traced (List SbTable)
  | 0, last => do
    if ← quiet (scanned atEnd) then pure []
    else do
      let t ← quiet (scanned sbTable)
      if last.any (fun i => decide (t.id ≤ i)) then quiet (refuse Errno.EILSEQ)
      else quiet (refuse Errno.ENOTSUP)
  | room + 1, last => do
    if ← quiet (scanned atEnd) then pure []
    else do
      let t ← quiet (scanned sbTable)
      if last.any (fun i => decide (t.id ≤ i)) then quiet (refuse Errno.EILSEQ)
      else do
        wrote ⟨.table, Field.table.count - (room + 1), 0, 1⟩
        let ts ← tablesTo room (some t.id)
        pure (t :: ts)

def superblockV1Trace : Traced Superblock := do
  quiet (scanned (expect 2))
  quiet (scanned (token .listStart))
  let rs ← rootsTo 2
  quiet (scanned (token .stop))
  match rs with
  | [people] => do
    wrote ⟨.table, 0, 0, 1⟩
    wrote ⟨.table, 1, 0, 1⟩
    quiet (scanned (expect 3))
    let cred ← quiet (scanned uint64)
    let (nPersons, populated, rev) ← quiet (scanned (figures 4))
    pure ⟨1, [⟨sbTablePeople, people, sbClassRequired, sbSchemaPeople⟩,
      ⟨sbTableCred, cred, sbClassRequired, sbSchemaCred⟩], nPersons, populated, rev⟩
  | [] => quiet (refuse Errno.EILSEQ)
  | _ => quiet (refuse Errno.ENOTSUP)

def superblockV2Trace : Traced Superblock := do
  quiet (scanned (expect 2))
  quiet (scanned (token .mapStart))
  let ts ← tablesTo sbTablesMax none
  quiet (scanned (token .stop))
  let (nPersons, populated, rev) ← quiet (scanned (figures 3))
  pure ⟨superblockVersion, ts, nPersons, populated, rev⟩

def superblockTrace : Traced Superblock := do
  quiet (scanned (token .mapStart))
  quiet (scanned (expect 1))
  let version ← quiet (scanned uint32)
  if version = 1 then superblockV1Trace
  else if version = superblockVersion then superblockV2Trace
  else quiet (refuse Errno.ENOTSUP)

/-! A trace answers as the decode does, and stays in its arrays -/

def Traces {α : Type} (x : Traced α) (y : SbScan α) : Prop :=
  ∀ ts ws, ∃ vs, x ts ws = (y ts, ws ++ vs) ∧ ∀ v ∈ vs, v.Within

theorem trace_bind {α β : Type} {x : Traced α} {f : α → Traced β} {ts ts' : List Tok}
    {ws ws' : List Write} {a : α} (h : x ts ws = (.ok (a, ts'), ws')) :
    (x >>= f) ts ws = f a ts' ws' := by
  simp only [bind, StateT.bind, ExceptT.bind, ExceptT.mk, h, ExceptT.bindCont]

theorem trace_bind_error {α β : Type} {x : Traced α} {f : α → Traced β} {ts : List Tok}
    {ws ws' : List Write} {e : Errno} (h : x ts ws = (.error e, ws')) :
    (x >>= f) ts ws = (.error e, ws') := by
  simp only [bind, StateT.bind, ExceptT.bind, ExceptT.mk, h, ExceptT.bindCont]
  rfl

namespace Traces

theorem quiet {α : Type} (x : SbScan α) : Traces (quiet x) x :=
  fun _ ws => ⟨[], by rw [List.append_nil]; rfl, nofun⟩

theorem pure {α : Type} (a : α) : Traces (Pure.pure a) (Pure.pure a) :=
  fun _ ws => ⟨[], by rw [List.append_nil]; rfl, nofun⟩

theorem bind {α β : Type} {x : Traced α} {y : SbScan α} {f : α → Traced β} {g : α → SbScan β}
    (h : Traces x y) (hf : ∀ a, Traces (f a) (g a)) : Traces (x >>= f) (y >>= g) := by
  intro ts ws
  obtain ⟨vs, hx, hvs⟩ := h ts ws
  cases hy : y ts with
  | error e =>
    rw [hy] at hx
    refine ⟨vs, ?_, hvs⟩
    rw [sb_bind_error hy, trace_bind_error hx]
  | ok r =>
    rw [hy] at hx
    obtain ⟨vs', hfx, hvs'⟩ := hf r.1 r.2 (ws ++ vs)
    refine ⟨vs ++ vs', ?_, fun v hv => (List.mem_append.mp hv).elim (hvs v) (hvs' v)⟩
    rw [sb_bind hy, ← List.append_assoc, ← hfx, trace_bind hx]

theorem ite {α : Type} {c : Prop} [Decidable c] {x x' : Traced α} {y y' : SbScan α}
    (h : Traces x y) (h' : Traces x' y') : Traces (if c then x else x') (if c then y else y') := by
  split
  . exact h
  . exact h'

-- A write within its array is not seen in the answer.
theorem wrote {α : Type} {w : Write} {x : Unit → Traced α} {y : SbScan α} (hw : w.Within)
    (h : Traces (x ()) y) : Traces (wrote w >>= x) y := by
  intro ts ws
  obtain ⟨vs, hx, hvs⟩ := h ts (ws ++ [w])
  refine ⟨w :: vs, ?_, fun v hv => (List.mem_cons.mp hv).elim (fun h => h ▸ hw) (hvs v)⟩
  rw [show ws ++ w :: vs = ws ++ [w] ++ vs by rw [List.append_assoc]; rfl, ← hx]
  rfl

end Traces

theorem scanned_bind {α β : Type} (x : Scan α) (f : α → Scan β) :
    scanned (x >>= f) = scanned x >>= fun a => scanned (f a) := by
  funext ts
  cases hx : x ts with
  | none =>
    rw [sb_bind_error (scanned_none hx)]
    refine scanned_none ?_
    show (x ts).bind _ = none
    rw [hx]
    rfl
  | some r =>
    rw [sb_bind (scanned_some hx), scanned, scan_bind hx]
    rfl

theorem scanned_pure {α : Type} (a : α) : scanned (pure a) = (pure a : SbScan α) := rfl

theorem scanned_failure {α : Type} : scanned (failure : Scan α) = refuse Errno.EILSEQ := rfl

theorem scanned_ite {α : Type} (c : Prop) [Decidable c] (x y : Scan α) :
    scanned (if c then x else y) = if c then scanned x else scanned y := by
  split <;> rfl

theorem copyTstr_traces {f : Field} {i : Nat} (hi : i < f.count) (s : List UInt8) :
    Traces (copyTstr f i s) (scanned (if f.size ≤ s.length then failure else pure (ofBytes s))) := by
  rw [scanned_ite, scanned_failure, scanned_pure, copyTstr]
  by_cases hs : f.size ≤ s.length
  . rw [if_pos hs, if_pos hs]
    exact .quiet _
  . rw [if_neg hs, if_neg hs]
    have hchars : (Write.mk f i 0 s.length).Within := ⟨hi, by dsimp only; omega⟩
    have hnul : (Write.mk f i s.length 1).Within := ⟨hi, by dsimp only; omega⟩
    exact .wrote hchars (.wrote hnul (.pure _))

theorem textTo_traces {f : Field} {i : Nat} (hi : i < f.count) :
    Traces (textTo f i) (scanned (text f.size)) := by
  rw [text, scanned_bind]
  refine .bind (.quiet _) fun t => ?_
  cases t with
  | tstr s => exact copyTstr_traces hi s
  | _ => exact .quiet _

theorem textsTo_traces (f : Field) {room : Nat} (hroom : room ≤ f.count) :
    Traces (textsTo f room) (scanned (texts f.size room)) := by
  induction room with
  | zero =>
    rw [textsTo, texts, scanned_bind]
    refine .bind (.quiet _) fun e => ?_
    rw [scanned_ite]
    exact .ite (.pure _) (.quiet _)
  | succ room ih =>
    rw [textsTo, texts, scanned_bind]
    refine .bind (.quiet _) fun e => ?_
    rw [scanned_ite, scanned_bind]
    refine .ite (.pure _) (.bind (textTo_traces (by omega)) fun s => ?_)
    rw [scanned_bind]
    exact .bind (ih (Nat.le_of_succ_le hroom)) fun rest => .pure _

theorem pinTo_traces : Traces pinTo (scanned pin) := by
  have hpin : (Write.mk .pinHash 0 0 pinLen).Within := ⟨Nat.one_pos, le_rfl⟩
  have h : Traces pinTo (scanned pin >>= pure) := .bind (.quiet _) fun p => .wrote hpin (.pure p)
  rwa [bind_pure] at h

theorem personTrace_traces : Traces personTrace (scanned personScan) := by
  rw [personTrace, personScan]
  simp only [scanned_bind]
  iterate 4 refine .bind (.quiet _) fun _ => ?_
  refine .bind (textTo_traces Nat.one_pos) fun _ => .bind (.quiet _) fun _ => ?_
  refine .bind (textTo_traces Nat.one_pos) fun _ => .bind (.quiet _) fun _ => ?_
  refine .bind (textTo_traces Nat.one_pos) fun _ => ?_
  iterate 5 refine .bind (.quiet _) fun _ => ?_
  refine .bind pinTo_traces fun _ => .bind (.quiet _) fun _ => .bind (.quiet _) fun _ => ?_
  refine .bind (textsTo_traces .perm le_rfl) fun _ => ?_
  iterate 3 refine .bind (.quiet _) fun _ => ?_
  refine .bind (textsTo_traces .card le_rfl) fun _ => ?_
  iterate 2 refine .bind (.quiet _) fun _ => ?_
  exact .pure _

theorem rootsTo_traces {room : Nat} (hroom : room ≤ 2) :
    Traces (rootsTo room) (scanned (roots room)) := by
  induction room with
  | zero =>
    rw [rootsTo, roots, scanned_bind]
    refine .bind (.quiet _) fun e => ?_
    rw [scanned_ite]
    exact .ite (.pure _) (.quiet _)
  | succ room ih =>
    have hroot : (Write.mk .roots (Field.roots.count - (room + 1)) 0 1).Within :=
      ⟨Nat.sub_lt Nat.two_pos (Nat.succ_pos _), le_rfl⟩
    rw [rootsTo, roots, scanned_bind]
    refine .bind (.quiet _) fun e => ?_
    rw [scanned_ite, scanned_bind]
    refine .ite (.pure _) (.bind (.quiet _) fun r => .wrote hroot ?_)
    rw [scanned_bind]
    exact .bind (ih (Nat.le_of_succ_le hroom)) fun rs => .pure _

theorem tablesTo_traces {room : Nat} (hroom : room ≤ sbTablesMax) (last : Option UInt32) :
    Traces (tablesTo room last) (sbTables room last) := by
  induction room generalizing last with
  | zero =>
    rw [tablesTo, sbTables]
    exact .bind (.quiet _) fun e => .ite (.pure _)
      (.bind (.quiet _) fun t => .ite (.quiet _) (.quiet _))
  | succ room ih =>
    have htable : (Write.mk .table (Field.table.count - (room + 1)) 0 1).Within :=
      ⟨Nat.sub_lt (by decide) (Nat.succ_pos _), le_rfl⟩
    rw [tablesTo, sbTables]
    exact .bind (.quiet _) fun e => .ite (.pure _) (.bind (.quiet _) fun t => .ite (.quiet _)
      (.wrote htable (.bind (ih (Nat.le_of_succ_le hroom) _) fun ts => .pure _)))

theorem superblockTrace_traces : Traces superblockTrace superblockScan := by
  have htable : ∀ i < 2, (Write.mk .table i 0 1).Within := fun i hi =>
    ⟨lt_of_lt_of_le hi (show 2 ≤ sbTablesMax by decide), le_rfl⟩
  have hv1 : Traces superblockV1Trace superblockV1Decode := by
    refine .bind (.quiet _) fun _ => .bind (.quiet _) fun _ => .bind (rootsTo_traces le_rfl)
      fun rs => .bind (.quiet _) fun _ => ?_
    match rs with
    | [] => exact .quiet _
    | [people] =>
      exact .wrote (htable 0 Nat.two_pos) (.wrote (htable 1 Nat.one_lt_two) (.bind (.quiet _)
        fun _ => .bind (.quiet _) fun _ => .bind (.quiet _) fun _ => .pure _))
    | _ :: _ :: _ => exact .quiet _
  have hv2 : Traces superblockV2Trace superblockV2Decode :=
    .bind (.quiet _) fun _ => .bind (.quiet _) fun _ => .bind (tablesTo_traces le_rfl _) fun _ =>
      .bind (.quiet _) fun _ => .bind (.quiet _) fun _ => .pure _
  exact .bind (.quiet _) fun _ => .bind (.quiet _) fun _ => .bind (.quiet _) fun _ =>
    .ite hv1 (.ite hv2 (.quiet _))

/-! The decoders -/

variable (Z : Zcbor)

def personCborTrace (bytes : List UInt8) : Except Errno Person × List Write :=
  match personTrace (Z.scan bytes) [] with
  | (.ok (p, _), ws) => (.ok p, ws)
  | (.error e, ws) => (.error e, ws)

def superblockCborTrace (bytes : List UInt8) : Except Errno Superblock × List Write :=
  match superblockTrace (Z.scan bytes) [] with
  | (.ok (sb, _), ws) => (.ok sb, ws)
  | (.error e, ws) => (.error e, ws)

theorem personCborTrace_spec (bytes : List UInt8) :
    (personCborTrace Z bytes).1 = personCborDecode Z bytes ∧
      ∀ w ∈ (personCborTrace Z bytes).2, w.Within := by
  obtain ⟨vs, htrace, hvs⟩ := personTrace_traces (Z.scan bytes) []
  rw [personCborTrace, personCborDecode, decodeBy, htrace]
  cases hscan : personScan (Z.scan bytes) with
  | none =>
    rw [scanned_none hscan]
    exact ⟨rfl, hvs⟩
  | some r =>
    rw [scanned_some hscan]
    exact ⟨rfl, hvs⟩

theorem superblockCborTrace_spec (bytes : List UInt8) :
    (superblockCborTrace Z bytes).1 = superblockCborDecode Z bytes ∧
      ∀ w ∈ (superblockCborTrace Z bytes).2, w.Within := by
  obtain ⟨vs, htrace, hvs⟩ := superblockTrace_traces (Z.scan bytes) []
  rw [superblockCborTrace, superblockCborDecode, htrace]
  cases superblockScan (Z.scan bytes) with
  | error e => exact ⟨rfl, hvs⟩
  | ok r => exact ⟨rfl, hvs⟩

end KeyValueDb.Persondb
