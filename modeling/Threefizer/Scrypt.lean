/-
# Scrypt (`scrypt.c`)

`kdf_scrypt` checks its parameters, allocates three buffers, derives the block
`B` from the password and the salt, mixes it with `smix`, and derives the key
from the password and what `B` is then. Both times it calls PBKDF2 with one
iteration, which is a parameter here (`Derive`): because of the overrun of `U`
the source does not say what the call leaves in the buffer, only how long it
is. `pbkdf2` is the instance in which the overrun does no harm.

A failed check sets the code that is returned; a failed `malloc` jumps to the
same labels and sets none.
-/
import Threefizer.Pbkdf2

namespace Threefizer

open Words

namespace Scrypt

/-! ### Salsa20/8 -/

/-- `le32dec` of the word number `i`. -/
def le32dec (B : List Byte) (i : ℕ) : UInt32 := UInt32.ofNat (value ((B.drop (4 * i)).take 4))

/-- `le32enc`. -/
def le32enc (x : UInt32) : List Byte := (List.range 4).map fun i => UInt8.ofNat (x.toNat / 256 ^ i)

/-- `(a << b) | (a >> (32 - b))`. -/
def R (a b : UInt32) : UInt32 := (a <<< b) ||| (a >>> (32 - b))

/-- The operations `x[t] ^= R(x[a] + x[b], k)` of a double round: columns, then rows. -/
def doubleRound : List (ℕ × ℕ × ℕ × UInt32) :=
  [(4, 0, 12, 7), (8, 4, 0, 9), (12, 8, 4, 13), (0, 12, 8, 18),
    (9, 5, 1, 7), (13, 9, 5, 9), (1, 13, 9, 13), (5, 1, 13, 18),
    (14, 10, 6, 7), (2, 14, 10, 9), (6, 2, 14, 13), (10, 6, 2, 18),
    (3, 15, 11, 7), (7, 3, 15, 9), (11, 7, 3, 13), (15, 11, 7, 18),
    (1, 0, 3, 7), (2, 1, 0, 9), (3, 2, 1, 13), (0, 3, 2, 18),
    (6, 5, 4, 7), (7, 6, 5, 9), (4, 7, 6, 13), (5, 4, 7, 18),
    (11, 10, 9, 7), (8, 11, 10, 9), (9, 8, 11, 13), (10, 9, 8, 18),
    (12, 15, 14, 7), (13, 12, 15, 9), (14, 13, 12, 13), (15, 14, 13, 18)]

def quarter (x : List UInt32) : ℕ × ℕ × ℕ × UInt32 → List UInt32
  | (t, a, b, k) => x.set t (x.getD t 0 ^^^ R (x.getD a 0 + x.getD b 0) k)

/-- `salsa20_8` on a block of 64 bytes. -/
def salsa20_8 (B : List Byte) : List Byte :=
  let B32 := (List.range 16).map (le32dec B)
  let x := (List.range 4).foldl (fun x _ => doubleRound.foldl quarter x) B32
  (List.zipWith (· + ·) B32 x).flatMap le32enc

/-! ### Mixing -/

/-- `blkxor`. -/
def blkxor (dest src : List Byte) : List Byte := List.zipWith (· ^^^ ·) dest src

/-- The block number `i` of 64 bytes. -/
def blk (B : List Byte) (i : ℕ) : List Byte := (B.drop (i * 64)).take 64

/-- The `n` blocks from `Y_i` on. -/
def mixBlocks (B : List Byte) : ℕ → ℕ → List Byte → List (List Byte)
  | 0, _, _ => []
  | n + 1, i, X => salsa20_8 (blkxor X (blk B i)) :: mixBlocks B n (i + 1) (salsa20_8 (blkxor X (blk B i)))

/-- `blockmix_salsa8`: the even blocks, then the odd ones. -/
def blockmix_salsa8 (B : List Byte) (r : ℕ) : List Byte :=
  let Y := mixBlocks B (2 * r) 0 (blk B (2 * r - 1))
  (List.range r).flatMap (fun i => Y.getD (i * 2) []) ++ (List.range r).flatMap fun i => Y.getD (i * 2 + 1) []

/-- `integerify`. -/
def integerify (B : List Byte) (r : ℕ) : ℕ := value ((blk B (2 * r - 1)).take 8)

/-- The first loop of `smix`: `n` more elements of `V`. -/
def fillLoop (r : ℕ) : ℕ → List Byte → List (List Byte) → List Byte × List (List Byte)
  | 0, X, V => (X, V)
  | n + 1, X, V => fillLoop r n (blockmix_salsa8 X r) (V ++ [X])

/-- The second loop of `smix`, `n` more rounds. -/
def mixLoop (r N : ℕ) (V : List (List Byte)) : ℕ → List Byte → List Byte
  | 0, X => X
  | n + 1, X => mixLoop r N V n (blockmix_salsa8 (blkxor X (V.getD (integerify X r &&& (N - 1)) [])) r)

/-- `smix` on a block of `128 * r` bytes. -/
def smix (B : List Byte) (r N : ℕ) : List Byte :=
  let (X, V) := fillLoop r N B []
  mixLoop r N V N X

/-! ### `kdf_scrypt` -/

/-- What a call of `PBKDF2_SKEIN512` with `c = 1` leaves in its buffer. -/
structure Derive where
  key : (passwd salt : List Byte) → (dkLen : ℕ) → List Byte
  length_key : ∀ passwd salt dkLen, (key passwd salt dkLen).length = dkLen

/-- The key as PBKDF2 defines it. -/
def pbkdf2 : Derive where
  key passwd salt dkLen := Pbkdf2.derived passwd 1 dkLen salt
  length_key passwd salt dkLen := Pbkdf2.length_derived passwd 1 dkLen salt

/-- The buffer is filled with one byte. -/
def Derive.const (b : Byte) : Derive where
  key _ _ dkLen := List.replicate dkLen b
  length_key _ _ _ := List.length_replicate

def SCRYPT_N : ℕ := 16384
def SCRYPT_R : ℕ := 32
def SCRYPT_P : ℕ := 1
def INTEGER_OVERFLOW : ℤ := -8
def SCRYPT_INVALID_VALUE : ℤ := -16
def SIZE_MAX : ℕ := 2 ^ 64 - 1

/-- Which of the three calls of `malloc` succeed. -/
structure Allocations where
  B : Bool
  XY : Bool
  V : Bool
  deriving DecidableEq, Repr

/-- All three succeed. -/
def Allocations.All (a : Allocations) : Prop := a.B = true ∧ a.XY = true ∧ a.V = true

instance (a : Allocations) : Decidable a.All := inferInstanceAs (Decidable (_ ∧ _))

variable (D : Derive) (passwd salt : List Byte) (N r p : ℕ)

/-- The block `B` after the mixing of its `p` parts. -/
def mixed : List Byte :=
  (List.range p).flatMap fun i => smix (((D.key passwd salt (p * 128 * r)).drop (i * 128 * r)).take (128 * r)) r N

/-- The second output of PBKDF2. -/
def stretched (buflen : ℕ) : List Byte := D.key passwd (mixed D passwd salt N r p) buflen

/-- `kdf_scrypt`: the code that is returned and what is in `buf` then, of the
length it had; none when the call does not return. `N` is a 64-bit number, `r`
and `p` are 32-bit numbers. -/
def kdf_scrypt (a : Allocations) (buf : List Byte) : Option (ℤ × List Byte) :=
  if buf.length > (2 ^ 32 - 1) * 32 then some (INTEGER_OVERFLOW, buf)
  else if r * p ≥ 2 ^ 30 then some (INTEGER_OVERFLOW, buf)
  else if N &&& (N - 1) ≠ 0 ∨ N = 0 then some (SCRYPT_INVALID_VALUE, buf)
  -- `SIZE_MAX / 128 / p` and then `SIZE_MAX / 128 / r` divide by zero
  else if p = 0 then none
  else if r > SIZE_MAX / 128 / p then some (Error.MEMORY_ALLOCATION_FAIL.code, buf)
  else if r = 0 then none
  else if N > SIZE_MAX / 128 / r then some (Error.MEMORY_ALLOCATION_FAIL.code, buf)
  else if a.B = false then some (0, buf)
  else if a.XY = false then some (0, buf)
  else if a.V = false then some (0, buf)
  -- the sizes of `B` and `XY` are calculated in 32 bits, and `smix` runs past what was allocated
  else if 128 * r * p ≥ 2 ^ 32 ∨ 256 * r ≥ 2 ^ 32 then none
  else some (0, stretched D passwd salt N r p buf.length)

/-- The parameters pass the checks. -/
def Accepted (buflen : ℕ) : Prop :=
  buflen ≤ (2 ^ 32 - 1) * 32 ∧ r * p < 2 ^ 30 ∧ (N &&& (N - 1) = 0 ∧ N ≠ 0) ∧
    (p ≠ 0 ∧ r ≤ SIZE_MAX / 128 / p) ∧ r ≠ 0 ∧ N ≤ SIZE_MAX / 128 / r

variable {D passwd salt N r p} {a : Allocations} {buf buf' : List Byte}

/-- What the allocations decide for accepted parameters. -/
theorem kdf_scrypt_accepted (hok : Accepted N r p buf.length) :
    kdf_scrypt D passwd salt N r p a buf =
      if a.All then
        if 128 * r * p ≥ 2 ^ 32 ∨ 256 * r ≥ 2 ^ 32 then none
        else some (0, stretched D passwd salt N r p buf.length)
      else some (0, buf) := by
  obtain ⟨h1, h2, h3, ⟨h4, h5⟩, h6, h7⟩ := hok
  rw [kdf_scrypt, if_neg (by omega), if_neg (by omega), if_neg (by tauto), if_neg h4, if_neg (by omega),
    if_neg h6, if_neg (by omega)]
  obtain ⟨B, XY, V⟩ := a
  cases B <;> cases XY <;> cases V <;> simp [Allocations.All]

/-- A check that ends in something else than `some x` was passed. -/
theorem passed_of_eq_some {α : Type} {c : Prop} [Decidable c] {fail rest : Option α} {x : α} (hne : fail ≠ some x)
    (h : (if c then fail else rest) = some x) : ¬ c ∧ rest = some x := by
  by_cases hc : c
  · rw [if_pos hc] at h
    exact absurd h hne
  · rw [if_neg hc] at h
    exact ⟨hc, h⟩

/-- Parameters that fail a check never give 0. -/
theorem accepted_of_zero (h : kdf_scrypt D passwd salt N r p a buf = some (0, buf')) :
    Accepted N r p buf.length := by
  have hcode : ∀ {code : ℤ}, code ≠ 0 → some (code, buf) ≠ some (0, buf') := by
    intro code hne heq
    exact hne (Prod.mk.inj (Option.some.inj heq)).1
  unfold kdf_scrypt at h
  obtain ⟨h1, h⟩ := passed_of_eq_some (hcode (by decide)) h
  obtain ⟨h2, h⟩ := passed_of_eq_some (hcode (by decide)) h
  obtain ⟨h3, h⟩ := passed_of_eq_some (hcode (by decide)) h
  obtain ⟨h4, h⟩ := passed_of_eq_some (Option.some_ne_none _).symm h
  obtain ⟨h5, h⟩ := passed_of_eq_some (hcode (by decide)) h
  obtain ⟨h6, h⟩ := passed_of_eq_some (Option.some_ne_none _).symm h
  obtain ⟨h7, -⟩ := passed_of_eq_some (hcode (by decide)) h
  exact ⟨by omega, by omega, by tauto, ⟨h4, by omega⟩, h6, by omega⟩

/-- If 0 is returned, the buffer holds the second output of PBKDF2. -/
def Stretches (D : Derive) (passwd salt : List Byte) (N r p : ℕ) (a : Allocations) (buflen : ℕ) : Prop :=
  ∀ buf buf', buf.length = buflen → kdf_scrypt D passwd salt N r p a buf = some (0, buf') →
    buf' = stretched D passwd salt N r p buflen

theorem stretches_iff {buflen : ℕ} :
    Stretches D passwd salt N r p a buflen ↔ buflen = 0 ∨ ¬ Accepted N r p buflen ∨ a.All := by
  constructor
  · intro h
    by_contra hne
    obtain ⟨hpos, hno⟩ := not_or.mp hne
    obtain ⟨hok, ha⟩ := not_or.mp hno
    have hsame : ∀ b : Byte, List.replicate buflen b = stretched D passwd salt N r p buflen := by
      intro b
      have hlen : (List.replicate buflen b).length = buflen := List.length_replicate
      refine h _ _ hlen ?_
      rw [kdf_scrypt_accepted (by rw [hlen]; exact not_not.mp hok), if_neg ha]
    -- two different buffers that are left as they were cannot both hold the output
    have heq := (hsame 0).trans (hsame 1).symm
    exact absurd (List.replicate_right_injective hpos heq) (by decide)
  · intro h buf buf' hlen hrun
    have hok := accepted_of_zero hrun
    rw [kdf_scrypt_accepted hok] at hrun
    by_cases ha : a.All
    · rw [if_pos ha] at hrun
      split at hrun
      · cases hrun
      · rw [← hlen]
        exact (Prod.mk.inj (Option.some.inj hrun)).2.symm
    · rw [if_neg ha] at hrun
      have hzero : buflen = 0 := by
        rcases h with h | h | h
        · exact h
        · exact absurd (hlen ▸ hok) h
        · exact absurd h ha
      have hbuf : buf' = buf := (Prod.mk.inj (Option.some.inj hrun)).2.symm
      rw [hbuf, List.length_eq_zero_iff.mp (hlen.trans hzero)]
      exact (List.length_eq_zero_iff.mp ((D.length_key _ _ _).trans hzero)).symm

end Scrypt

end Threefizer
