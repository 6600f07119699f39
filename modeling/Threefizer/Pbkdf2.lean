/-
# PBKDF2 (`pbkdf2Skein512.c`)

`PBKDF2_SKEIN512` fills `buff` in blocks of 32 bytes. Its MAC is initialized
for a digest of 512 bits, so every `skeinFinal` delivers 64 bytes into `U`,
which holds 32. In the model `U` is the 32 bytes it holds; what the bytes past
it overwrite is not.

Both loops count in 64 bits, and run for ever when their bound is the largest
number or near it, so a run is given a bound on its rounds. An `Access` is a
delivery of `skeinFinal` or a write to `buff`. What is in `buff` in the end
depends on what was overwritten; `derived` is PBKDF2 as it is defined.
-/
import Threefizer.Lib.Overlay
import Threefizer.Lib.Traced
import Threefizer.SkeinApi

namespace Threefizer

open SkeinApi

namespace Pbkdf2

/-- `be32enc`. -/
def be32enc (x : ℕ) : List Byte :=
  [UInt8.ofNat (x / 2 ^ 24), UInt8.ofNat (x / 2 ^ 16), UInt8.ofNat (x / 2 ^ 8), UInt8.ofNat x]

/-- What is written outside the local variables: the bytes `skeinFinal`
delivers into `U`, and those copied into `buff`. -/
inductive Access
  | final (bytes : ℕ)
  | copy (offset length : ℕ)
  deriving DecidableEq, Repr

/-- The access is inside `U[32]`, or inside `buff` of length `dkLen`. -/
def Access.Inside (dkLen : ℕ) : Access → Prop
  | .final bytes => bytes ≤ 32
  | .copy offset length => offset + length ≤ dkLen

variable (passwd : List Byte) (c dkLen : ℕ)

/-- The MAC of `U`. -/
def nextHash (U : List Byte) : List Byte :=
  skeinFinal (skeinUpdate (skeinMacInit .Skein512 passwd SkeinSize.Skein512.bits) U)

/-- The MAC of the salt and the block index. -/
def firstHash (Pctx : SkeinCtx) (i : ℕ) : List Byte := skeinFinal (skeinUpdate Pctx (be32enc (i + 1)))

/-- The loop from `j` on, in at most `fuel` rounds. -/
def innerLoop : ℕ → ℕ → List Byte → List Byte → Traced Access (List Byte)
  | 0, _, _, _ => .stuck
  | fuel + 1, j, U, T =>
    if j ≤ c then
      let hash := nextHash passwd U
      .emit (.final hash.length)
        (innerLoop fuel ((j + 1) % 2 ^ 64) (hash.take 32) (List.zipWith (· ^^^ ·) T (hash.take 32)))
    else .done T

/-- The loop from the block `i` on, in at most `fuel` rounds of at most `rounds` rounds each. -/
def outerLoop (Pctx : SkeinCtx) (rounds : ℕ) : ℕ → ℕ → List Byte → Traced Access (List Byte)
  | 0, _, _ => .stuck
  | fuel + 1, i, buff =>
    let offset := i * 32 % 2 ^ 64
    if offset < dkLen then
      let hash := firstHash Pctx i
      .emit (.final hash.length) ((innerLoop passwd c rounds 2 (hash.take 32) (hash.take 32)).bind fun T =>
        let clen := min (dkLen - offset) 32
        .emit (.copy offset clen)
          (outerLoop Pctx rounds fuel ((i + 1) % 2 ^ 64) (Overlay.writeAt 0 buff offset (T.take clen))))
    else .done buff

/-- The context after the password and the salt. -/
def saltContext (salt : List Byte) : SkeinCtx :=
  skeinUpdate (skeinMacInit .Skein512 passwd SkeinSize.Skein512.bits) salt

/-- `PBKDF2_SKEIN512` with at most `fuel` rounds of each loop; `buff` is what
the buffer holds before, and the result what it holds after. -/
def PBKDF2_SKEIN512 (fuel : ℕ) (salt buff : List Byte) : Traced Access (List Byte) :=
  outerLoop passwd c dkLen (saltContext passwd salt) fuel fuel 0 buff

/-! ### Accesses -/

theorem length_nextHash (U : List Byte) : (nextHash passwd U).length = 64 := by
  rw [nextHash, length_skeinFinal, byteCnt_skeinUpdate, byteCnt_skeinMacInit]
  rfl

theorem length_firstHash (salt : List Byte) (i : ℕ) : (firstHash (saltContext passwd salt) i).length = 64 := by
  rw [firstHash, length_skeinFinal, saltContext, byteCnt_skeinUpdate, byteCnt_skeinUpdate, byteCnt_skeinMacInit]
  rfl

/-- A write of the run is inside `buff`, and a delivery has 64 bytes. -/
def Access.Expected : Access → Prop
  | .final bytes => bytes = 64
  | .copy offset length => offset + length ≤ dkLen

theorem innerLoop_expected : ∀ (fuel j : ℕ) (U T : List Byte),
    (innerLoop passwd c fuel j U T).All (Access.Expected dkLen)
  | 0, _, _, _ => Traced.all_stuck
  | fuel + 1, j, U, T => by
    unfold innerLoop
    split
    · exact Traced.all_emit.mpr ⟨length_nextHash passwd U, innerLoop_expected fuel _ _ _⟩
    · exact Traced.all_done T

theorem outerLoop_expected (salt : List Byte) (rounds : ℕ) : ∀ (fuel i : ℕ) (buff : List Byte),
    (outerLoop passwd c dkLen (saltContext passwd salt) rounds fuel i buff).All (Access.Expected dkLen)
  | 0, _, _ => Traced.all_stuck
  | fuel + 1, i, buff => by
    unfold outerLoop
    simp only
    split
    next hlt =>
      refine Traced.all_emit.mpr ⟨length_firstHash passwd salt i, Traced.all_bind ?_ fun T _ => ?_⟩
      · exact innerLoop_expected passwd c dkLen rounds 2 _ _
      · refine Traced.all_emit.mpr ⟨?_, outerLoop_expected salt rounds fuel _ _⟩
        show i * 32 % 2 ^ 64 + min (dkLen - i * 32 % 2 ^ 64) 32 ≤ dkLen
        omega
    next => exact Traced.all_done buff

/-- The first delivery is already too long for `U`. -/
theorem not_inside (passwd salt buff : List Byte) (c : ℕ) {dkLen : ℕ} (h : 0 < dkLen) :
    ¬ (PBKDF2_SKEIN512 passwd c dkLen 1 salt buff).All (Access.Inside dkLen) := by
  have hpos : 0 * 32 % 2 ^ 64 < dkLen := h
  intro hall
  simp only [PBKDF2_SKEIN512, outerLoop, if_pos hpos] at hall
  have hin : (firstHash (saltContext passwd salt) 0).length ≤ 32 := (Traced.all_emit.mp hall).1
  rw [length_firstHash] at hin
  exact absurd hin (by decide)

/-- `PBKDF2_SKEIN512` stays inside its buffers only when there is nothing to
derive: every delivery has 64 bytes. Its writes to `buff` are inside it. -/
theorem inside_iff (passwd salt buff : List Byte) (c dkLen : ℕ) :
    ((∀ fuel, (PBKDF2_SKEIN512 passwd c dkLen fuel salt buff).All (Access.Inside dkLen)) ↔ dkLen = 0) ∧
    ∀ fuel, (PBKDF2_SKEIN512 passwd c dkLen fuel salt buff).All (Access.Expected dkLen) := by
  refine ⟨⟨fun h => ?_, ?_⟩, fun fuel => outerLoop_expected passwd c dkLen salt fuel fuel 0 buff⟩
  · by_contra hne
    exact not_inside passwd salt buff c (Nat.pos_of_ne_zero hne) (h 1)
  · rintro rfl fuel
    cases fuel with
    | zero => exact Traced.all_stuck
    | succ fuel => exact Traced.all_done buff

/-- Deriving one byte overruns `U`. -/
theorem one_byte_overruns : ¬ ∀ (passwd salt buff : List Byte) (c dkLen fuel : ℕ), 1 ≤ c →
    (PBKDF2_SKEIN512 passwd c dkLen fuel salt buff).All (Access.Inside dkLen) :=
  fun h => not_inside [1] [2] [0] 1 Nat.one_pos (h [1] [2] [0] 1 1 1 le_rfl)

/-! ### PBKDF2 as it is defined -/

/-- The XOR of `T` and the next `n` hashes. -/
def innerRounds : ℕ → List Byte → List Byte → List Byte
  | 0, _, T => T
  | n + 1, U, T =>
    innerRounds n ((nextHash passwd U).take 32) (List.zipWith (· ^^^ ·) T ((nextHash passwd U).take 32))

/-- The block `i` of the key: the XOR of `c` hashes. -/
def block (salt : List Byte) (i : ℕ) : List Byte :=
  innerRounds passwd (c - 1) ((firstHash (saltContext passwd salt) i).take 32)
    ((firstHash (saltContext passwd salt) i).take 32)

/-- The first `dkLen` bytes of the blocks in order. -/
def derived (salt : List Byte) : List Byte :=
  ((List.range' 0 ((dkLen + 31) / 32)).flatMap (block passwd c salt)).take dkLen

theorem length_innerRounds : ∀ (n : ℕ) (U T : List Byte), T.length = 32 → (innerRounds passwd n U T).length = 32
  | 0, _, _, hT => hT
  | n + 1, U, T, hT => length_innerRounds n _ _ (by simp [hT, length_nextHash])

theorem length_block (salt : List Byte) (i : ℕ) : (block passwd c salt i).length = 32 := by
  apply length_innerRounds
  rw [List.length_take, length_firstHash]
  rfl

theorem length_derived (salt : List Byte) : (derived passwd c dkLen salt).length = dkLen := by
  have hlen : ((List.range' 0 ((dkLen + 31) / 32)).flatMap (block passwd c salt)).length = (dkLen + 31) / 32 * 32 := by
    simp [List.length_flatMap, length_block]
  rw [derived, List.length_take, hlen]
  omega

end Pbkdf2

end Threefizer
