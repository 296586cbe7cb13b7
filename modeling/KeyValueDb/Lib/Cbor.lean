import KeyValueDb.Lib.Bytes

/-!
Items of the Concise Binary Object Representation as a stream of tokens, in canonical form: a head
is as short as its number allows, and a list or a map says at its head how long it is. In the stream
a `stop` ends each of them. What was written scans back.
-/

namespace KeyValueDb.Cbor

inductive Tok where
  | uint (n : UInt64)
  | bstr (bytes : List UInt8)
  | tstr (bytes : List UInt8)
  | listStart
  | mapStart
  | stop
  deriving Repr, DecidableEq

-- The length of a string fits its head.
def Tok.Short : Tok → Prop
  | .bstr bytes | .tstr bytes => bytes.length < 2 ^ 64
  | _ => True

-- A container that is open: a list, or a map that comes to a key or to the value of one.
inductive Level where
  | list
  | key
  | value
  deriving Repr, DecidableEq

def Level.next : Level → Level
  | .list => .list
  | .key => .value
  | .value => .key

-- What is open after one more item, the innermost container first.
def passed : List Level → List Level
  | l :: ls => l.next :: ls
  | [] => []

-- The open containers end with the stream, each map after a value.
def Closes : List Level → List Tok → Prop
  | ls, [] => ls = []
  | ls, .listStart :: ts => Closes (.list :: passed ls) ts
  | ls, .mapStart :: ts => Closes (.key :: passed ls) ts
  | .list :: ls, .stop :: ts | .key :: ls, .stop :: ts => Closes ls ts
  | _, .stop :: _ => False
  | ls, _ :: ts => Closes (passed ls) ts

/-! Heads: a major type with a number -/

def headByte (major low : Nat) : UInt8 := UInt8.ofNat (major * 32 + low)

-- The number in `w` bytes, most significant first.
def headWide (major low n w : Nat) : List UInt8 := headByte major low :: (leBytes n w).reverse

def head (major n : Nat) : List UInt8 :=
  if n < 24 then [headByte major n]
  else if n < 2 ^ 8 then headWide major 24 n 1
  else if n < 2 ^ 16 then headWide major 25 n 2
  else if n < 2 ^ 32 then headWide major 26 n 4
  else headWide major 27 n 8

def readHead : List UInt8 → Option (Nat × Nat × List UInt8)
  | [] => none
  | b :: rest =>
    let major := b.toNat / 32
    let low := b.toNat % 32
    let w := 2 ^ (low - 24)
    if low < 24 then some (major, low, rest)
    else if 27 < low ∨ rest.length < w then none
    else some (major, leNat (rest.take w).reverse, rest.drop w)

/-! Writing -/

-- What a stream has for one container: how many items, and their bytes.
structure Part where
  count : Nat
  bytes : List UInt8

-- One more item in front, for the innermost of the containers.
def prepend (bytes : List UInt8) : List Part → List Part
  | p :: ps => ⟨p.count + 1, bytes ++ p.bytes⟩ :: ps
  | [] => []

-- A container is one item of the container around it, with its length at its head.
def putTok : Tok → List Part → List Part
  | .uint n, ps => prepend (head 0 n.toNat) ps
  | .bstr bytes, ps => prepend (head 2 bytes.length ++ bytes) ps
  | .tstr bytes, ps => prepend (head 3 bytes.length ++ bytes) ps
  | .listStart, p :: ps => prepend (head 4 p.count ++ p.bytes) ps
  | .mapStart, p :: ps => prepend (head 5 (p.count / 2) ++ p.bytes) ps
  | .stop, ps => ⟨0, []⟩ :: ps
  | _, [] => []

theorem putTok_stop (ps : List Part) : putTok .stop ps = ⟨0, []⟩ :: ps := rfl

theorem putTok_listStart (p : Part) (ps : List Part) :
    putTok .listStart (p :: ps) = prepend (head 4 p.count ++ p.bytes) ps := rfl

theorem putTok_mapStart (p : Part) (ps : List Part) :
    putTok .mapStart (p :: ps) = prepend (head 5 (p.count / 2) ++ p.bytes) ps := rfl

-- What a stream has for each container that is open before it, the outermost being the stream.
def parts (ts : List Tok) : List Part := ts.foldr putTok [⟨0, []⟩]

def put (ts : List Tok) : List UInt8 := (parts ts).flatMap Part.bytes

/-! Reading -/

-- The bytes that a string head announces.
def readString (f : List UInt8 → Tok) (n : Nat) (rest : List UInt8) :
    Option (Tok × List Nat × List UInt8) :=
  if rest.length < n then none else some (f (rest.take n), [], rest.drop n)

-- A token, and how many items the container has that it opens.
def readTok (bytes : List UInt8) : Option (Tok × List Nat × List UInt8) :=
  match readHead bytes with
  | some (0, n, rest) => some (.uint (UInt64.ofNat n), [], rest)
  | some (2, n, rest) => readString .bstr n rest
  | some (3, n, rest) => readString .tstr n rest
  | some (4, n, rest) => some (.listStart, [n], rest)
  | some (5, n, rest) => some (.mapStart, [2 * n], rest)
  | _ => none

-- One item less to come in the innermost container.
def counted : List Nat → List Nat
  | n :: ns => (n - 1) :: ns
  | [] => []

-- The tokens up to the first byte that begins none. A container ends with its last item.
def scanFrom : Nat → List Nat → List UInt8 → List Tok
  | 0, _, _ => []
  | fuel + 1, 0 :: ns, bytes => .stop :: scanFrom fuel ns bytes
  | fuel + 1, ns, bytes =>
    match readTok bytes with
    | some (t, opened, rest) => t :: scanFrom fuel (opened ++ counted ns) rest
    | none => []

-- Every byte begins one token at most, and a container adds the token that ends it.
def scan (bytes : List UInt8) : List Tok := scanFrom (2 * bytes.length) [] bytes

theorem headByte_toNat {major low : Nat} (hm : major < 8) (hl : low < 32) :
    (headByte major low).toNat = major * 32 + low := by
  rw [headByte, UInt8.toNat_ofNat']
  omega

theorem readHead_wide {major low n w : Nat} (hm : major < 8) (hlow : 24 ≤ low) (hle : low ≤ 27)
    (hw : w = 2 ^ (low - 24)) (hn : n < 256 ^ w) (rest : List UInt8) :
    readHead (headWide major low n w ++ rest) = some (major, n, rest) := by
  have hlen : (leBytes n w).reverse.length = w := by rw [List.length_reverse, leBytes_length]
  have hb := headByte_toNat hm (show low < 32 by omega)
  have hmajor : (major * 32 + low) / 32 = major := by omega
  have hmod : (major * 32 + low) % 32 = low := by omega
  simp only [headWide, List.cons_append, readHead, hb, hmajor, hmod, ← hw]
  rw [if_neg (by omega), if_neg (by simp only [List.length_append, hlen]; omega),
    List.take_left' hlen, List.drop_left' hlen, List.reverse_reverse, leNat_leBytes,
    Nat.mod_eq_of_lt hn]

theorem readHead_head {major n : Nat} (hm : major < 8) (hn : n < 2 ^ 64) (rest : List UInt8) :
    readHead (head major n ++ rest) = some (major, n, rest) := by
  rw [head]
  split
  . have hb := headByte_toNat hm (show n < 32 by omega)
    have hmajor : (major * 32 + n) / 32 = major := by omega
    have hmod : (major * 32 + n) % 32 = n := by omega
    simp only [List.cons_append, List.nil_append, readHead, hb, hmajor, hmod]
    rw [if_pos (by assumption)]
  . split
    . exact readHead_wide hm (by decide) (by decide) rfl (by omega) rest
    . split
      . exact readHead_wide hm (by decide) (by decide) rfl (by omega) rest
      . split
        . exact readHead_wide hm (by decide) (by decide) rfl (by omega) rest
        . exact readHead_wide hm (by decide) (by decide) rfl (by omega) rest

theorem readTok_head {major n : Nat} (hm : major < 8) (hn : n < 2 ^ 64) (rest : List UInt8) :
    readTok (head major n ++ rest) =
      match (some (major, n, rest) : Option (Nat × Nat × List UInt8)) with
      | some (0, n, rest) => some (.uint (UInt64.ofNat n), [], rest)
      | some (2, n, rest) => readString .bstr n rest
      | some (3, n, rest) => readString .tstr n rest
      | some (4, n, rest) => some (.listStart, [n], rest)
      | some (5, n, rest) => some (.mapStart, [2 * n], rest)
      | _ => none := by
  rw [readTok, readHead_head hm hn]

theorem readString_append (f : List UInt8 → Tok) (bytes rest : List UInt8) :
    readString f bytes.length (bytes ++ rest) = some (f bytes, [], rest) := by
  rw [readString, if_neg (by simp), List.take_left' rfl, List.drop_left' rfl]

theorem head_pos (major n : Nat) : 0 < (head major n).length := by
  rw [head]
  split_ifs <;> simp [headWide]

/-! What is open agrees with what the stream has for it -/

def Level.Takes : Level → Nat → Prop
  | .list, _ => True
  | .key, n => n % 2 = 0
  | .value, n => n % 2 = 1

theorem Level.takes_succ {l : Level} {n : Nat} (h : l.next.Takes n) : l.Takes (n + 1) := by
  cases l with
  | list => trivial
  | key =>
    simp only [Level.next, Level.Takes] at h ⊢
    omega
  | value =>
    simp only [Level.next, Level.Takes] at h ⊢
    omega

inductive Pending : List Level → List Part → Prop where
  | root (p : Part) : Pending [] [p]
  | cons {l : Level} {p : Part} {ls : List Level} {ps : List Part} (takes : l.Takes p.count)
    (rest : Pending ls ps) : Pending (l :: ls) (p :: ps)

theorem Pending.opened {l : Level} {ls : List Level} {ps : List Part} (h : Pending (l :: ls) ps) :
    ∃ q qs, ps = q :: qs ∧ l.Takes q.count ∧ Pending ls qs := by
  cases h with
  | cons takes rest => exact ⟨_, _, rfl, takes, rest⟩

-- How many items are to come in each open container.
def counts (ps : List Part) : List Nat := ps.dropLast.map Part.count

theorem Pending.ne_nil {ls : List Level} {ps : List Part} (h : Pending ls ps) : ps ≠ [] := by
  cases h with
  | root p => exact List.cons_ne_nil _ _
  | cons _ _ => exact List.cons_ne_nil _ _

theorem counts_cons {ps : List Part} (h : ps ≠ []) (p : Part) :
    counts (p :: ps) = p.count :: counts ps := by
  rw [counts, List.dropLast_cons_of_ne_nil h]
  rfl

theorem Pending.prepend {ls : List Level} {ps : List Part} (h : Pending (passed ls) ps)
    (bytes : List UInt8) : Pending ls (prepend bytes ps) := by
  cases ls with
  | nil =>
    cases h with
    | root p => exact .root _
  | cons l ls =>
    cases h with
    | cons takes rest => exact .cons (Level.takes_succ takes) rest

theorem flatMap_prepend {ps : List Part} (h : ps ≠ []) (bytes : List UInt8) :
    (prepend bytes ps).flatMap Part.bytes = bytes ++ ps.flatMap Part.bytes := by
  cases ps with
  | nil => exact absurd rfl h
  | cons p ps => simp only [prepend, List.flatMap_cons, List.append_assoc]

theorem putTok_pending {ls : List Level} {t : Tok} {ts : List Tok} {ps : List Part}
    (hc : Closes ls (t :: ts)) (ih : ∀ ls, Closes ls ts → Pending ls ps) :
    Pending ls (putTok t ps) := by
  cases t with
  | uint n => exact (ih _ hc).prepend _
  | bstr bytes => exact (ih _ hc).prepend _
  | tstr bytes => exact (ih _ hc).prepend _
  | listStart =>
    cases ih _ hc with
    | cons _ rest => exact rest.prepend _
  | mapStart =>
    cases ih _ hc with
    | cons _ rest => exact rest.prepend _
  | stop =>
    match ls, hc with
    | .list :: ls, hc => exact .cons trivial (ih _ hc)
    | .key :: ls, hc => exact .cons rfl (ih _ hc)

theorem parts_pending {ls : List Level} {ts : List Tok} (h : Closes ls ts) :
    Pending ls (parts ts) := by
  induction ts generalizing ls with
  | nil =>
    cases h
    exact .root _
  | cons t ts ih => exact putTok_pending h fun _ => ih

theorem prepend_count_le {k : Nat} {ps : List Part} (h : ∀ p ∈ ps, p.count ≤ k)
    (bytes : List UInt8) : ∀ p ∈ prepend bytes ps, p.count ≤ k + 1 := by
  cases ps with
  | nil => exact nofun
  | cons q ps =>
    intro p hp
    rcases List.mem_cons.mp hp with rfl | hp
    . exact Nat.succ_le_succ (h q List.mem_cons_self)
    . exact Nat.le_succ_of_le (h p (List.mem_cons_of_mem _ hp))

theorem parts_count_le (ts : List Tok) : ∀ p ∈ parts ts, p.count ≤ ts.length := by
  induction ts with
  | nil =>
    intro p hp
    rw [List.mem_singleton.mp hp]
    exact le_rfl
  | cons t ts ih =>
    have htail : ∀ p ∈ (parts ts).tail, p.count ≤ ts.length := fun p hp =>
      ih p (List.mem_of_mem_tail hp)
    rw [show parts (t :: ts) = putTok t (parts ts) from rfl, List.length_cons]
    cases t with
    | uint n => exact prepend_count_le ih _
    | bstr bytes => exact prepend_count_le ih _
    | tstr bytes => exact prepend_count_le ih _
    | listStart =>
      cases hp : parts ts with
      | nil => exact nofun
      | cons q ps =>
        rw [hp] at htail
        exact prepend_count_le htail _
    | mapStart =>
      cases hp : parts ts with
      | nil => exact nofun
      | cons q ps =>
        rw [hp] at htail
        exact prepend_count_le htail _
    | stop =>
      intro p hp
      rcases List.mem_cons.mp hp with rfl | hp
      . exact Nat.zero_le _
      . exact Nat.le_succ_of_le (ih p hp)

/-! What was written scans back -/

-- A token that is written in front of the rest of its container is the next to be read.
theorem scanFrom_prepend {fuel : Nat} {ls : List Level} {ps : List Part} {bytes rest : List UInt8}
    {t : Tok} {opened : List Nat} (h : Pending ls (prepend bytes ps))
    (hread : readTok (bytes ++ ps.flatMap Part.bytes) = some (t, opened, rest)) :
    scanFrom (fuel + 1) (counts (prepend bytes ps)) ((prepend bytes ps).flatMap Part.bytes) =
      t :: scanFrom fuel (opened ++ counts ps) rest := by
  cases ps with
  | nil => nomatch h
  | cons p ps =>
    rw [flatMap_prepend (List.cons_ne_nil _ _)]
    cases ps with
    | nil =>
      show scanFrom (fuel + 1) [] _ = _
      rw [scanFrom, hread]
      . rfl
      . exact nofun
    | cons q ps =>
      rw [prepend, counts_cons (List.cons_ne_nil _ _), counts_cons (List.cons_ne_nil _ _),
        scanFrom, hread]
      . rfl
      . exact nofun

theorem counts_prepend_length (bytes : List UInt8) (ps : List Part) :
    (counts (prepend bytes ps)).length = (counts ps).length := by
  cases ps with
  | nil => rfl
  | cons p ps => simp only [prepend, counts, List.length_map, List.length_dropLast, List.length_cons]

-- The rest of the stream after a token that was written in front of it.
theorem scanFrom_next {fuel : Nat} {ls : List Level} {ps : List Part} {bytes rest : List UInt8}
    {t : Tok} {ts : List Tok} (opened : List Nat) (h : Pending ls (prepend bytes ps))
    (hread : readTok (bytes ++ ps.flatMap Part.bytes) = some (t, opened, rest))
    (hlen : opened.length + 2 * rest.length < 2 * (bytes ++ ps.flatMap Part.bytes).length)
    (hf : (counts (prepend bytes ps)).length +
      2 * ((prepend bytes ps).flatMap Part.bytes).length ≤ fuel)
    (ih : ∀ fuel, (opened ++ counts ps).length + 2 * rest.length ≤ fuel →
      scanFrom fuel (opened ++ counts ps) rest = ts) :
    scanFrom fuel (counts (prepend bytes ps)) ((prepend bytes ps).flatMap Part.bytes) =
      t :: ts := by
  have hne : ps ≠ [] := by
    rintro rfl
    exact h.ne_nil rfl
  rw [counts_prepend_length, flatMap_prepend hne] at hf
  obtain ⟨fuel, rfl⟩ : ∃ k, fuel = k + 1 := ⟨fuel - 1, by omega⟩
  rw [scanFrom_prepend h hread, ih fuel (by rw [List.length_append]; omega)]

theorem scanFrom_parts {ls : List Level} {ts : List Tok} {fuel : Nat} (hc : Closes ls ts)
    (hs : ∀ t ∈ ts, t.Short) (hlen : ts.length < 2 ^ 64)
    (hf : (counts (parts ts)).length + 2 * ((parts ts).flatMap Part.bytes).length ≤ fuel) :
    scanFrom fuel (counts (parts ts)) ((parts ts).flatMap Part.bytes) = ts := by
  induction ts generalizing ls fuel with
  | nil =>
    cases fuel with
    | zero => rfl
    | succ fuel => rfl
  | cons t ts ih =>
    have hpend := parts_pending hc
    have hlt : ts.length < 2 ^ 64 := lt_trans (Nat.lt_succ_self _) hlen
    have hcount := parts_count_le ts
    have hshort := hs t List.mem_cons_self
    have hrest : ∀ ls fuel, Closes ls ts →
        (counts (parts ts)).length + 2 * ((parts ts).flatMap Part.bytes).length ≤ fuel →
        scanFrom fuel (counts (parts ts)) ((parts ts).flatMap Part.bytes) = ts := fun _ _ hc hf =>
      ih hc (fun u hu => hs u (List.mem_cons_of_mem _ hu)) hlt hf
    rw [show parts (t :: ts) = putTok t (parts ts) from rfl] at hf hpend ⊢
    cases t with
    | uint n =>
      refine scanFrom_next [] hpend ?_ ?_ hf fun fuel hf => hrest _ fuel hc hf
      . rw [readTok_head (by decide) n.toNat_lt]
        simp
      . have := head_pos 0 n.toNat
        simp only [List.length_append, List.length_nil]
        omega
    | bstr bytes =>
      refine scanFrom_next [] hpend ?_ ?_ hf fun fuel hf => hrest _ fuel hc hf
      . rw [List.append_assoc, readTok_head (by decide) hshort]
        exact readString_append _ _ _
      . have := head_pos 2 bytes.length
        simp only [List.length_append, List.length_nil]
        omega
    | tstr bytes =>
      refine scanFrom_next [] hpend ?_ ?_ hf fun fuel hf => hrest _ fuel hc hf
      . rw [List.append_assoc, readTok_head (by decide) hshort]
        exact readString_append _ _ _
      . have := head_pos 3 bytes.length
        simp only [List.length_append, List.length_nil]
        omega
    | listStart =>
      obtain ⟨p, ps, hps, -, hopen⟩ := (parts_pending (show Closes (.list :: passed ls) ts from hc)).opened
      have hrest := fun fuel => hrest (.list :: passed ls) fuel hc
      rw [hps] at hcount hrest hpend hf ⊢
      rw [counts_cons hopen.ne_nil, List.flatMap_cons] at hrest
      refine scanFrom_next [p.count] hpend ?_ ?_ hf hrest
      . rw [List.append_assoc, readTok_head (by decide)
          (lt_of_le_of_lt (hcount p List.mem_cons_self) hlt)]
        rfl
      . have := head_pos 4 p.count
        simp only [List.length_append, List.length_singleton]
        omega
    | mapStart =>
      obtain ⟨p, ps, hps, heven, hopen⟩ := (parts_pending (show Closes (.key :: passed ls) ts from hc)).opened
      have hrest := fun fuel => hrest (.key :: passed ls) fuel hc
      rw [hps] at hcount hrest hpend hf ⊢
      rw [counts_cons hopen.ne_nil, List.flatMap_cons] at hrest
      have hhalf : 2 * (p.count / 2) = p.count := Nat.mul_div_cancel' (Nat.dvd_of_mod_eq_zero heven)
      refine scanFrom_next [p.count] hpend ?_ ?_ hf hrest
      . have hp := hcount p List.mem_cons_self
        rw [List.append_assoc, readTok_head (by decide) (by omega)]
        show some (Tok.mapStart, [2 * (p.count / 2)], _) = _
        rw [hhalf]
      . have := head_pos 5 (p.count / 2)
        simp only [List.length_append, List.length_singleton]
        omega
    | stop =>
      have hinner : ∃ ls', Closes ls' ts := by
        match ls, hc with
        | .list :: ls, hc => exact ⟨ls, hc⟩
        | .key :: ls, hc => exact ⟨ls, hc⟩
      obtain ⟨ls', hc'⟩ := hinner
      have hne := (parts_pending hc').ne_nil
      rw [putTok_stop, counts_cons hne, List.length_cons, List.flatMap_cons, List.nil_append] at hf
      rw [putTok_stop, counts_cons hne, List.flatMap_cons, List.nil_append]
      obtain ⟨fuel, rfl⟩ : ∃ k, fuel = k + 1 := ⟨fuel - 1, by omega⟩
      rw [scanFrom, hrest ls' fuel hc' (by omega)]

theorem scan_put {ts : List Tok} (hc : Closes [] ts) (hs : ∀ t ∈ ts, t.Short)
    (hlen : ts.length < 2 ^ 64) : scan (put ts) = ts := by
  have hroot : ∀ ps, Pending [] ps → counts ps = [] := by
    rintro _ ⟨⟩
    rfl
  have h0 := hroot _ (parts_pending hc)
  have hfuel : (counts (parts ts)).length + 2 * (put ts).length ≤ 2 * (put ts).length := by
    rw [h0, List.length_nil, Nat.zero_add]
  have h := scanFrom_parts hc hs hlen hfuel
  rw [h0] at h
  exact h

/-! How long a stream is -/

theorem head_length (major n w : Nat) (h : w = 1 ∧ n < 24 ∨ w = 2 ∧ n < 2 ^ 8 ∨ w = 5 ∧ n < 2 ^ 32
    ∨ w = 9) : (head major n).length ≤ w := by
  rw [head]
  split_ifs <;> simp only [headWide, List.length_cons, List.length_reverse, leBytes_length,
    List.length_nil] <;> omega

-- Tokens that are `n` items of the container around them, in `len` bytes at most.
def Fits (seg : List Tok) (n len : Nat) : Prop :=
  ∃ bytes, bytes.length ≤ len ∧
    ∀ p ps, seg.foldr putTok (p :: ps) = ⟨p.count + n, bytes ++ p.bytes⟩ :: ps

theorem Fits.nil : Fits [] 0 0 := ⟨[], le_rfl, fun _ _ => rfl⟩

theorem Fits.mono {seg : List Tok} {n len len' : Nat} (h : Fits seg n len) (hle : len ≤ len') :
    Fits seg n len' := by
  obtain ⟨bytes, hlen, hput⟩ := h
  exact ⟨bytes, le_trans hlen hle, hput⟩

theorem Fits.append {seg seg' : List Tok} {n n' len len' : Nat} (h : Fits seg n len)
    (h' : Fits seg' n' len') : Fits (seg ++ seg') (n + n') (len + len') := by
  obtain ⟨bytes, hlen, hput⟩ := h
  obtain ⟨bytes', hlen', hput'⟩ := h'
  refine ⟨bytes ++ bytes', ?_, fun p ps => ?_⟩
  . rw [List.length_append]
    exact Nat.add_le_add hlen hlen'
  . rw [List.foldr_append, hput', hput]
    simp only [List.append_assoc, Nat.add_assoc, Nat.add_comm n' n]

theorem Fits.uint {n : UInt64} {w : Nat}
    (h : w = 1 ∧ n.toNat < 24 ∨ w = 2 ∧ n.toNat < 2 ^ 8 ∨ w = 5 ∧ n.toNat < 2 ^ 32 ∨ w = 9) :
    Fits [.uint n] 1 w :=
  ⟨head 0 n.toNat, head_length _ _ _ h, fun _ _ => rfl⟩

theorem Fits.tstr {bytes : List UInt8} {k w : Nat} (hlen : bytes.length ≤ k)
    (h : w = 1 ∧ k < 24 ∨ w = 2 ∧ k < 2 ^ 8) : Fits [.tstr bytes] 1 (w + k) := by
  refine ⟨head 3 bytes.length ++ bytes, ?_, fun _ _ => rfl⟩
  have := head_length 3 bytes.length w (by omega)
  rw [List.length_append]
  omega

theorem Fits.bstr {bytes : List UInt8} {k w : Nat} (hlen : bytes.length ≤ k)
    (h : w = 1 ∧ k < 24 ∨ w = 2 ∧ k < 2 ^ 8) : Fits [.bstr bytes] 1 (w + k) := by
  refine ⟨head 2 bytes.length ++ bytes, ?_, fun _ _ => rfl⟩
  have := head_length 2 bytes.length w (by omega)
  rw [List.length_append]
  omega

theorem Fits.list {seg : List Tok} {n len : Nat} (h : Fits seg n len) (hn : n < 24) :
    Fits (.listStart :: seg ++ [.stop]) 1 (1 + len) := by
  obtain ⟨bytes, hlen, hput⟩ := h
  refine ⟨head 4 n ++ bytes, ?_, fun p ps => ?_⟩
  . have := head_length 4 n 1 (by omega)
    rw [List.length_append]
    omega
  . rw [List.cons_append, List.foldr_cons, List.foldr_append]
    simp only [List.foldr_cons, List.foldr_nil, putTok_listStart, putTok_stop, hput, prepend, Nat.zero_add,
      List.append_nil]

theorem Fits.map {seg : List Tok} {n len : Nat} (h : Fits seg n len) (hn : n < 48) :
    Fits (.mapStart :: seg ++ [.stop]) 1 (1 + len) := by
  obtain ⟨bytes, hlen, hput⟩ := h
  refine ⟨head 5 (n / 2) ++ bytes, ?_, fun p ps => ?_⟩
  . have := head_length 5 (n / 2) 1 (by omega)
    rw [List.length_append]
    omega
  . rw [List.cons_append, List.foldr_cons, List.foldr_append]
    simp only [List.foldr_cons, List.foldr_nil, putTok_mapStart, putTok_stop, hput, prepend, Nat.zero_add,
      List.append_nil]

theorem Fits.put_length {ts : List Tok} {n len : Nat} (h : Fits ts n len) :
    (put ts).length ≤ len := by
  obtain ⟨bytes, hlen, hput⟩ := h
  rw [put, parts, hput]
  simpa using hlen

end KeyValueDb.Cbor
