import Mathlib.Data.List.Basic
import Mathlib.Tactic.Ring

/-!
Blocks of NOR flash as functions from offsets to bytes, little-endian numbers, and the two checksums.
Programming a byte only clears bits; erasing a block sets all of them.
-/

namespace KeyValueDb

/-- The contents of one erase block. -/
abbrev Sector := Nat → UInt8

/-- `n` bytes from `off` on. -/
def bytesAt (f : Sector) (off : Nat) : Nat → List UInt8
  | 0 => []
  | n + 1 => f off :: bytesAt f (off + 1) n

/-- Program `data` at `off`. -/
def program (f : Sector) (off : Nat) (data : List UInt8) : Sector := fun j =>
  if off ≤ j ∧ j < off + data.length then f j &&& data.getD (j - off) 0xff else f j

/-- A fully erased block. -/
def blank : Sector := fun _ => 0xff

/-- A block that holds `data` and is erased after it. -/
def image (data : List UInt8) : Sector := fun j => data.getD j 0xff

/-- An erase that only got through the bytes below `n`. -/
def eraseBelow (f : Sector) (n : Nat) : Sector := fun j => if j < n then 0xff else f j

/-- An erase that only got through the bytes from `n` on. -/
def eraseFrom (f : Sector) (n : Nat) : Sector := fun j => if n ≤ j then 0xff else f j

/-- Copy `n` bytes from `src` to `dst` inside one buffer. -/
def memmove (f : Sector) (dst src n : Nat) : Sector := fun j =>
  if dst ≤ j ∧ j < dst + n then f (src + (j - dst)) else f j

/-- `data` stored at `off` of a RAM buffer. -/
def memcpy (f : Sector) (off : Nat) (data : List UInt8) : Sector := fun j =>
  if off ≤ j ∧ j < off + data.length then data.getD (j - off) 0 else f j

/-- `w` bytes of `n`, least significant first. -/
def leBytes (n : Nat) : Nat → List UInt8
  | 0 => []
  | w + 1 => UInt8.ofNat n :: leBytes (n / 256) w

def leNat : List UInt8 → Nat
  | [] => 0
  | b :: bs => b.toNat + 256 * leNat bs

/-- The number stored in `w` bytes at `off`. -/
def leAt (f : Sector) (off w : Nat) : Nat := leNat (bytesAt f off w)

/-- All of the `n` bytes at `off` are erased. -/
def allErased (f : Sector) (off n : Nat) : Bool := (bytesAt f off n).all (· == 0xff)

/-! Checksums -/

def crc16Step (seed : Nat) (b : UInt8) : Nat :=
  let e := (seed ^^^ b.toNat) % 256
  let f := (e ^^^ (e <<< 4)) % 256
  (seed >>> 8) ^^^ (f <<< 8) ^^^ (f <<< 3) ^^^ (f >>> 4)

/-- CRC-16-CCITT, the reflected form, from `seed`. -/
def crc16Ccitt (seed : Nat) (data : List UInt8) : Nat := data.foldl crc16Step seed

def crc32Nibble (n : Nat) : Nat :=
  [0x00000000, 0x1db71064, 0x3b6e20c8, 0x26d930ac, 0x76dc4190, 0x6b6b51f4, 0x4db26158, 0x5005713c,
   0xedb88320, 0xf00f9344, 0xd6d6a3e8, 0xcb61b38c, 0x9b64c2b0, 0x86d3d2d4, 0xa00ae278,
   0xbdbdf21c].getD n 0

def crc32Step (c : Nat) (b : UInt8) : Nat :=
  let c := (c >>> 4) ^^^ crc32Nibble ((c ^^^ b.toNat) % 16)
  (c >>> 4) ^^^ crc32Nibble ((c ^^^ (b.toNat >>> 4)) % 16)

def crc32IeeeUpdate (crc : Nat) (data : List UInt8) : Nat :=
  data.foldl crc32Step (crc ^^^ 0xffffffff) ^^^ 0xffffffff

/-- CRC-32 as in IEEE 802.3. -/
def crc32Ieee (data : List UInt8) : Nat := crc32IeeeUpdate 0 data

example : crc16Ccitt 0xffff [0x31, 0x32, 0x33, 0x34, 0x35, 0x36, 0x37, 0x38, 0x39] = 0x6f91 := by
  decide

example : crc32Ieee [0x31, 0x32, 0x33, 0x34, 0x35, 0x36, 0x37, 0x38, 0x39] = 0xcbf43926 := by
  decide

/-! Reading what was written -/

@[simp]
theorem bytesAt_length (f : Sector) (off n : Nat) : (bytesAt f off n).length = n := by
  induction n generalizing off with
  | zero => rfl
  | succ n ih => simp [bytesAt, ih]

theorem bytesAt_getD (f : Sector) (off n i : Nat) (d : UInt8) (hi : i < n) :
    (bytesAt f off n).getD i d = f (off + i) := by
  induction n generalizing off i with
  | zero => omega
  | succ n ih =>
    cases i with
    | zero => simp [bytesAt]
    | succ i =>
      rw [bytesAt, List.getD_cons_succ, ih (off + 1) i (by omega)]
      congr 1
      omega

theorem bytesAt_congr {f g : Sector} {off n : Nat}
    (h : ∀ j, off ≤ j → j < off + n → f j = g j) : bytesAt f off n = bytesAt g off n := by
  induction n generalizing off with
  | zero => rfl
  | succ n ih =>
    rw [bytesAt, bytesAt, h off (by omega) (by omega)]
    rw [ih]
    intro j h1 h2
    exact h j (by omega) (by omega)

theorem bytesAt_inj {f g : Sector} {off n : Nat} (h : bytesAt f off n = bytesAt g off n) :
    ∀ j, off ≤ j → j < off + n → f j = g j := by
  intro j h1 h2
  have hf := bytesAt_getD f off n (j - off) 0 (by omega)
  have hg := bytesAt_getD g off n (j - off) 0 (by omega)
  rw [h, hg] at hf
  have : off + (j - off) = j := by omega
  rw [this] at hf
  exact hf.symm

theorem bytesAt_append (f : Sector) (off m n : Nat) :
    bytesAt f off (m + n) = bytesAt f off m ++ bytesAt f (off + m) n := by
  induction m generalizing off with
  | zero => simp [bytesAt]
  | succ m ih =>
    have : m + 1 + n = m + n + 1 := by omega
    rw [this, bytesAt, ih, bytesAt, List.cons_append]
    have : off + 1 + m = off + (m + 1) := by omega
    rw [this]

/-- What `n` bytes at `off` are is decided byte by byte. -/
theorem bytesAt_eq_of_getD {f : Sector} {off : Nat} {data : List UInt8}
    (h : ∀ i, i < data.length → f (off + i) = data.getD i 0) :
    bytesAt f off data.length = data := by
  induction data generalizing off with
  | nil => rfl
  | cons b bs ih =>
    rw [List.length_cons, bytesAt]
    have h0 : f off = b := by simpa using h 0 (by simp)
    rw [h0, ih]
    intro i hi
    have := h (i + 1) (by simp; omega)
    rw [List.getD_cons_succ] at this
    rw [← this]
    congr 1
    omega

theorem getD_default {data : List UInt8} {i : Nat} (hi : i < data.length) (d d' : UInt8) :
    data.getD i d = data.getD i d' := by
  simp [List.getD_eq_getElem?_getD, List.getElem?_eq_getElem hi]

theorem erased_and (b : UInt8) : (0xff : UInt8) &&& b = b := by
  apply UInt8.eq_of_toBitVec_eq
  simp only [UInt8.toBitVec_and]
  exact BitVec.allOnes_and

theorem program_of_lt {f : Sector} {off j : Nat} {data : List UInt8} (h : j < off) :
    program f off data j = f j := by
  simp [program, show ¬ off ≤ j by omega]

theorem program_of_ge {f : Sector} {off j : Nat} {data : List UInt8} (h : off + data.length ≤ j) :
    program f off data j = f j := by
  simp [program, show ¬ j < off + data.length by omega]

theorem program_of_erased {f : Sector} {off j : Nat} {data : List UInt8} (h1 : off ≤ j)
    (h2 : j < off + data.length) (he : f j = 0xff) :
    program f off data j = data.getD (j - off) 0 := by
  simp only [program, h1, h2, and_self, if_true, he]
  rw [erased_and]
  exact getD_default (by omega) _ _

theorem program_nil (f : Sector) (off : Nat) : program f off [] = f := by
  funext j
  simp only [program, List.length_nil]
  split <;> first | omega | rfl

/-- Data written to erased flash reads back. -/
theorem bytesAt_program {f : Sector} {off : Nat} {data : List UInt8}
    (he : ∀ j, off ≤ j → j < off + data.length → f j = 0xff) :
    bytesAt (program f off data) off data.length = data := by
  apply bytesAt_eq_of_getD
  intro i hi
  rw [program_of_erased (by omega) (by omega) (he _ (by omega) (by omega))]
  congr 1
  omega

@[simp]
theorem leBytes_length (n w : Nat) : (leBytes n w).length = w := by
  induction w generalizing n with
  | zero => rfl
  | succ w ih => simp [leBytes, ih]

theorem leNat_leBytes (n w : Nat) : leNat (leBytes n w) = n % 256 ^ w := by
  induction w generalizing n with
  | zero => simp [leBytes, leNat, Nat.mod_one]
  | succ w ih =>
    have h256 : (UInt8.ofNat n).toNat = n % 256 := by simp
    rw [leBytes, leNat, ih, h256, Nat.pow_succ, Nat.mul_comm (256 ^ w) 256, Nat.mod_mul]

theorem leNat_lt (l : List UInt8) : leNat l < 256 ^ l.length := by
  induction l with
  | nil => simp [leNat]
  | cons b bs ih =>
    have hb := b.toNat_lt
    simp only [leNat, List.length_cons, Nat.pow_succ]
    omega

theorem leAt_lt (f : Sector) (off w : Nat) : leAt f off w < 256 ^ w := by
  have := leNat_lt (bytesAt f off w)
  rwa [bytesAt_length] at this

theorem image_bytesAt {f : Sector} {off n j : Nat} (hj : j < n) :
    image (bytesAt f off n) j = f (off + j) := by
  rw [image, bytesAt_getD f off n j _ hj]

theorem bytesAt_shift {f g : Sector} {off off' n : Nat}
    (h : ∀ i, i < n → f (off + i) = g (off' + i)) : bytesAt f off n = bytesAt g off' n := by
  induction n generalizing off off' with
  | zero => rfl
  | succ n ih =>
    have h0 : f off = g off' := h 0 (by omega)
    rw [bytesAt, bytesAt, h0, ih]
    intro i hi
    have := h (i + 1) (by omega)
    rwa [show off + (i + 1) = off + 1 + i by omega, show off' + (i + 1) = off' + 1 + i by omega]
      at this

-- Bytes of a buffer that a read filled are bytes of the flash.
theorem bytesAt_image {f : Sector} {off n o k : Nat} (h : o + k ≤ n) :
    bytesAt (image (bytesAt f off n)) o k = bytesAt f (off + o) k := by
  apply bytesAt_shift
  intro i hi
  rw [image_bytesAt (by omega), Nat.add_assoc]

theorem leAt_congr {f g : Sector} {off w : Nat} (h : ∀ j, off ≤ j → j < off + w → f j = g j) :
    leAt f off w = leAt g off w := by
  rw [leAt, leAt, bytesAt_congr h]

theorem allErased_iff {f : Sector} {off n : Nat} :
    allErased f off n = true ↔ ∀ j, off ≤ j → j < off + n → f j = 0xff := by
  induction n generalizing off with
  | zero =>
    simp only [allErased, bytesAt, List.all_nil, true_iff]
    omega
  | succ n ih =>
    have hstep : allErased f off (n + 1) = (f off == 0xff && allErased f (off + 1) n) := rfl
    rw [hstep, Bool.and_eq_true, ih, beq_iff_eq]
    constructor
    . intro ⟨h0, h⟩ j h1 h2
      by_cases hj : j = off
      . rw [hj]
        exact h0
      . exact h j (by omega) (by omega)
    . intro h
      exact ⟨h off (by omega) (by omega), fun j h1 h2 => h j (by omega) (by omega)⟩

-- Reading a record field by field.
theorem bytesAt_split {f : Sector} {off : Nat} {a b : List UInt8}
    (h : bytesAt f off (a ++ b).length = a ++ b) :
    bytesAt f off a.length = a ∧ bytesAt f (off + a.length) b.length = b := by
  rw [List.length_append, bytesAt_append] at h
  exact List.append_inj h (bytesAt_length ..)

theorem leAt_of_bytesAt {f : Sector} {off n w : Nat} (h : bytesAt f off w = leBytes n w)
    (hn : n < 256 ^ w) : leAt f off w = n := by
  rw [leAt, h, leNat_leBytes, Nat.mod_eq_of_lt hn]

theorem crc16Step_lt {c : Nat} (b : UInt8) (h : c < 2 ^ 16) : crc16Step c b < 2 ^ 16 := by
  unfold crc16Step
  extract_lets e f
  have hf : f < 2 ^ 8 := Nat.mod_lt _ (by decide)
  apply Nat.xor_lt_two_pow
  . apply Nat.xor_lt_two_pow
    . apply Nat.xor_lt_two_pow
      . rw [Nat.shiftRight_eq_div_pow]
        omega
      . rw [Nat.shiftLeft_eq]
        omega
    . rw [Nat.shiftLeft_eq]
      omega
  . rw [Nat.shiftRight_eq_div_pow]
    omega

theorem crc16Ccitt_lt {seed : Nat} (data : List UInt8) (h : seed < 2 ^ 16) :
    crc16Ccitt seed data < 2 ^ 16 := by
  unfold crc16Ccitt
  induction data generalizing seed with
  | nil => exact h
  | cons b bs ih => exact ih (crc16Step_lt b h)

theorem crc32Step_lt {c : Nat} (b : UInt8) (h : c < 2 ^ 32) : crc32Step c b < 2 ^ 32 := by
  have hnibble : ∀ n, n < 16 → crc32Nibble n < 2 ^ 32 := by decide
  have hhalf : ∀ c n, c < 2 ^ 32 → (c >>> 4) ^^^ crc32Nibble (n % 16) < 2 ^ 32 := by
    intro c n hc
    apply Nat.xor_lt_two_pow
    . rw [Nat.shiftRight_eq_div_pow]
      omega
    . exact hnibble _ (Nat.mod_lt _ (by decide))
  exact hhalf _ _ (hhalf _ _ h)

theorem crc32IeeeUpdate_lt {crc : Nat} (data : List UInt8) (h : crc < 2 ^ 32) :
    crc32IeeeUpdate crc data < 2 ^ 32 := by
  have hfold : ∀ c, c < 2 ^ 32 → data.foldl crc32Step c < 2 ^ 32 := by
    induction data with
    | nil => exact fun _ hc => hc
    | cons b bs ih => exact fun c hc => ih _ (crc32Step_lt b hc)
  unfold crc32IeeeUpdate
  exact Nat.xor_lt_two_pow (hfold _ (Nat.xor_lt_two_pow h (by decide))) (by decide)

theorem crc32Ieee_lt (data : List UInt8) : crc32Ieee data < 2 ^ 32 :=
  crc32IeeeUpdate_lt data (by decide)

theorem crc16Ccitt_append (seed : Nat) (a b : List UInt8) :
    crc16Ccitt seed (a ++ b) = crc16Ccitt (crc16Ccitt seed a) b := by
  simp [crc16Ccitt]

/-! Writes into a row of bytes -/

-- The bytes after `buf` is written at `offset`: as many as both need, `buf` where it was written, the old
-- bytes elsewhere, and zeros where there were none.
def overwritten (old : List UInt8) (offset : Nat) (buf : List UInt8) : List UInt8 :=
  (List.range (max old.length (offset + buf.length))).map fun i =>
    if offset ≤ i ∧ i < offset + buf.length then buf.getD (i - offset) 0 else old.getD i 0

theorem overwritten_length (old : List UInt8) (offset : Nat) (buf : List UInt8) :
    (overwritten old offset buf).length = max old.length (offset + buf.length) := by
  unfold overwritten
  rw [List.length_map, List.length_range]

end KeyValueDb
