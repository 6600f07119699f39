/-
# Padding to whole blocks (`pad.c`)

`getNumBlocks` counts blocks with a 32-bit counter of bytes against a 64-bit
length. For a length at least one block short of `2^32` it returns
`⌈length / block⌉` (`getNumBlocks_eq`); for a longer one the counter wraps
before it reaches the length and the loop never ends, whatever the number of
rounds (`numBlocksLoop_none`). The model gives the loop `2^32` rounds, more
than it can use, and returns `none` when they run out.
-/
import Threefizer.Basic
import Mathlib.Order.Bounds.Basic

namespace Threefizer

open Words

/-- The loop of `getNumBlocks` from given counters, for at most `fuel` rounds. -/
def numBlocksLoop (input_length : ℕ) (s : SkeinSize) : ℕ → ℕ → ℕ → Option ℕ
  | 0, _, _ => none
  | fuel + 1, bytes, blocks =>
    if bytes < input_length then
      numBlocksLoop input_length s fuel ((bytes + s.bytes) % 2 ^ 32) ((blocks + 1) % 2 ^ 64)
    else some blocks

/-- `getNumBlocks`; `none` when the loop does not end. -/
def getNumBlocks (input_length : ℕ) (s : SkeinSize) : Option ℕ :=
  numBlocksLoop input_length s (2 ^ 32) 0 0

/-- `getPadSize`, with its product in 64 bits. -/
def getPadSize (input_length : ℕ) (s : SkeinSize) : Option ℕ :=
  (getNumBlocks input_length s).map fun blocks => blocks * s.bits % 2 ^ 64 / 8

/-- `pad`: the words of a zero-filled buffer of whole blocks that starts with
the input. Its guard reads `!input_length % state_size == 0`, so only an empty
input is returned as it is. -/
def pad (input : List Byte) (input_length : ℕ) (s : SkeinSize) : Option (List Word) :=
  if (if input_length = 0 then 1 else 0) % s.bits = 0 then
    (getNumBlocks input_length s).map fun num_blocks =>
      wordsOf (input ++ List.replicate (num_blocks * (s.bits / 8) - input_length) 0)
  else some (wordsOf input)

/-! ### What they compute -/

/-- `⌈n / block⌉`. -/
def blockCount (n : ℕ) (s : SkeinSize) : ℕ := (n + (s.bytes - 1)) / s.bytes

/-- The input followed by zero bytes up to a whole number of blocks. -/
def padded (input : List Byte) (s : SkeinSize) : List Byte :=
  input ++ List.replicate (blockCount input.length s * s.bytes - input.length) 0

theorem le_blockCount_mul (n : ℕ) (s : SkeinSize) : n ≤ blockCount n s * s.bytes := by
  unfold blockCount
  rcases s.bytes_cases with h | h | h <;> rw [h] <;> omega

theorem blockCount_mul_lt (n : ℕ) (s : SkeinSize) : blockCount n s * s.bytes < n + s.bytes := by
  unfold blockCount
  rcases s.bytes_cases with h | h | h <;> rw [h] <;> omega

theorem blockCount_of_dvd {n : ℕ} {s : SkeinSize} (h : s.bytes ∣ n) :
    blockCount n s * s.bytes = n := by
  obtain ⟨k, rfl⟩ := h
  unfold blockCount
  rcases s.bytes_cases with h | h | h <;> rw [h] <;> omega

theorem blockCount_mul (k : ℕ) (s : SkeinSize) : blockCount (k * s.bytes) s = k := by
  unfold blockCount
  rcases s.bytes_cases with h | h | h <;> rw [h] <;> omega

theorem blockCount_pos {n : ℕ} (s : SkeinSize) (h : 0 < n) : 0 < blockCount n s := by
  have := le_blockCount_mul n s
  rcases Nat.eq_zero_or_pos (blockCount n s) with h0 | h0
  · rw [h0] at this; omega
  · exact h0

/-- Whole blocks in front are whole blocks of the count. -/
theorem blockCount_add (k n : ℕ) (s : SkeinSize) :
    blockCount (k * s.bytes + n) s = k + blockCount n s := by
  unfold blockCount
  rcases s.bytes_cases with h | h | h <;> rw [h] <;> omega

/-- The padded length can be counted if the length can. -/
theorem blockCount_mul_fits {n : ℕ} {s : SkeinSize} (h : n + s.bytes ≤ 2 ^ 32) :
    blockCount n s * s.bytes + s.bytes ≤ 2 ^ 32 := by
  have hlt := blockCount_mul_lt n s
  rcases s.bytes_cases with hb | hb | hb <;> rw [hb] at hlt h ⊢ <;> omega

@[simp] theorem length_padded (input : List Byte) (s : SkeinSize) :
    (padded input s).length = blockCount input.length s * s.bytes := by
  have := le_blockCount_mul input.length s
  simp [padded]; omega

theorem padded_of_dvd {input : List Byte} {s : SkeinSize} (h : s.bytes ∣ input.length) :
    padded input s = input := by
  simp [padded, blockCount_of_dvd h]

theorem eight_dvd_padded (input : List Byte) (s : SkeinSize) : 8 ∣ (padded input s).length := by
  rw [length_padded, s.bytes_eq, Nat.mul_left_comm]; exact Nat.dvd_mul_right _ _

/-- While the rounded-up length fits the counter, `N - k` more rounds give `N`. -/
theorem numBlocksLoop_some {n : ℕ} {s : SkeinSize} (h : n + s.bytes ≤ 2 ^ 32) :
    ∀ (fuel k : ℕ), k ≤ blockCount n s → blockCount n s < k + fuel →
      numBlocksLoop n s fuel (k * s.bytes) k = some (blockCount n s)
  | 0, k, h1, h2 => by omega
  | fuel + 1, k, h1, h2 => by
    have hN := le_blockCount_mul n s
    have hN' := blockCount_mul_lt n s
    rw [numBlocksLoop]
    by_cases hk : k = blockCount n s
    · subst hk
      rw [if_neg (by omega)]
    · have hlt : k + 1 ≤ blockCount n s := by omega
      have hmul : (k + 1) * s.bytes ≤ blockCount n s * s.bytes := Nat.mul_le_mul_right _ hlt
      have hkn : k * s.bytes < n := by
        have : (k + 1) * s.bytes < n + s.bytes := lt_of_le_of_lt hmul hN'
        rw [Nat.succ_mul] at this; omega
      have hsmall : k + 1 < 2 ^ 64 := by
        have : k * 1 ≤ k * s.bytes := Nat.mul_le_mul_left _ s.bytes_pos
        omega
      rw [if_pos hkn, Nat.mod_eq_of_lt hsmall, ← Nat.add_one_mul,
        Nat.mod_eq_of_lt (by have := s.bytes_pos; omega)]
      exact numBlocksLoop_some h fuel (k + 1) hlt (by omega)

/-- Past that the counter, a multiple of the block below `2^32`, never reaches
the length. -/
theorem numBlocksLoop_none {n : ℕ} {s : SkeinSize} (h : 2 ^ 32 < n + s.bytes) :
    ∀ (fuel bytes blocks : ℕ), s.bytes ∣ bytes → bytes < 2 ^ 32 →
      numBlocksLoop n s fuel bytes blocks = none
  | 0, _, _, _, _ => rfl
  | fuel + 1, bytes, blocks, hd, hlt => by
    have hle : bytes + s.bytes ≤ 2 ^ 32 := by
      obtain ⟨k, rfl⟩ := hd
      rcases s.bytes_cases with hb | hb | hb <;> rw [hb] at hlt ⊢ <;> omega
    have h32 : s.bytes ∣ 2 ^ 32 := by cases s <;> decide
    rw [numBlocksLoop, if_pos (by omega)]
    exact numBlocksLoop_none h fuel _ _
      ((Nat.dvd_mod_iff h32).mpr ((Nat.dvd_add_right hd).mpr dvd_rfl)) (Nat.mod_lt _ (by decide))

theorem getNumBlocks_eq {n : ℕ} {s : SkeinSize} (h : n + s.bytes ≤ 2 ^ 32) :
    getNumBlocks n s = some (blockCount n s) := by
  have hlt := blockCount_mul_lt n s
  have hle : blockCount n s * 1 ≤ blockCount n s * s.bytes := Nat.mul_le_mul_left _ s.bytes_pos
  have := numBlocksLoop_some h (2 ^ 32) 0 (Nat.zero_le _) (by omega)
  rwa [Nat.zero_mul] at this

theorem getNumBlocks_none {n : ℕ} {s : SkeinSize} (h : 2 ^ 32 < n + s.bytes) :
    getNumBlocks n s = none :=
  numBlocksLoop_none h _ _ _ (Nat.dvd_zero _) (by decide)

theorem getPadSize_eq {n : ℕ} {s : SkeinSize} (h : n + s.bytes ≤ 2 ^ 32) :
    getPadSize n s = some (blockCount n s * s.bytes) := by
  have hlt := blockCount_mul_lt n s
  rw [getPadSize, getNumBlocks_eq h, Option.map_some]
  have hb : s.bits = 8 * s.bytes := by cases s <;> rfl
  rw [hb, Nat.mul_left_comm, Nat.mod_eq_of_lt (by omega), Nat.mul_div_cancel_left _ (by decide)]

theorem pad_eq {input : List Byte} {s : SkeinSize} (h0 : 0 < input.length)
    (h : input.length + s.bytes ≤ 2 ^ 32) :
    pad input input.length s = some (wordsOf (padded input s)) := by
  rw [pad, if_neg (Nat.pos_iff_ne_zero.mp h0), Nat.zero_mod, if_pos rfl, getNumBlocks_eq h,
    Option.map_some]
  rfl

/-! ### Over all lengths -/

/-- `blockCount` is the least number of blocks that hold `n` bytes. -/
theorem isLeast_blockCount (n : ℕ) (s : SkeinSize) : IsLeast {k | n ≤ k * s.bytes} (blockCount n s) := by
  refine ⟨le_blockCount_mul n s, fun k hk => ?_⟩
  have hlt : blockCount n s * s.bytes < (k + 1) * s.bytes := calc
    blockCount n s * s.bytes < n + s.bytes := blockCount_mul_lt n s
    _ ≤ k * s.bytes + s.bytes := Nat.add_le_add_right hk _
    _ = (k + 1) * s.bytes := (Nat.add_one_mul k _).symm
  exact Nat.le_of_lt_succ (Nat.lt_of_mul_lt_mul_right hlt)

/-- The padded length is the least multiple of the block that holds `n` bytes. -/
theorem isLeast_padded (n : ℕ) (s : SkeinSize) :
    IsLeast {p | s.bytes ∣ p ∧ n ≤ p} (blockCount n s * s.bytes) := by
  refine ⟨⟨Nat.dvd_mul_left _ _, le_blockCount_mul n s⟩, ?_⟩
  rintro p ⟨⟨k, rfl⟩, hk⟩
  rw [Nat.mul_comm s.bytes] at hk ⊢
  exact Nat.mul_le_mul_right _ ((isLeast_blockCount n s).2 hk)

/-- **The counter of `getNumBlocks` decides what can be counted**: its loop
ends, with the number of blocks, and `getPadSize` gives the padded length, for
exactly the lengths at least one block short of `2^32`. -/
theorem getNumBlocks_counts_iff (n : ℕ) (s : SkeinSize) :
    ((∃ fuel blocks, numBlocksLoop n s fuel 0 0 = some blocks ∧ getNumBlocks n s = some blocks ∧
        IsLeast {k | n ≤ k * s.bytes} blocks) ∧
      ∃ size, getPadSize n s = some size ∧ IsLeast {p | s.bytes ∣ p ∧ n ≤ p} size) ↔ n + s.bytes ≤ 2 ^ 32 := by
  constructor
  · rintro ⟨⟨_, blocks, -, hcount, -⟩, -⟩
    by_contra hlt
    rw [getNumBlocks_none (by omega)] at hcount
    cases hcount
  · intro h
    exact ⟨⟨2 ^ 32, _, getNumBlocks_eq h, getNumBlocks_eq h, isLeast_blockCount n s⟩,
      _, getPadSize_eq h, isLeast_padded n s⟩

/-- Four gibibytes in blocks of 32 bytes: the loop goes on whatever the number
of rounds. -/
theorem getNumBlocks_never_ends : blockCount (2 ^ 32) .Skein256 * 32 * 8 < 2 ^ 64 ∧
    ∀ fuel, numBlocksLoop (2 ^ 32) .Skein256 fuel 0 0 = none :=
  ⟨by decide, fun fuel => numBlocksLoop_none (by decide) fuel 0 0 (Nat.dvd_zero _) (by decide)⟩

/-! ### Chunks that can be counted -/

/-- `getNumBlocks` returns on the size of the chunk. -/
def Countable (s : SkeinSize) (c : Chunk) : Prop := getNumBlocks c.data_size s ≠ none

theorem countable_of_le {s : SkeinSize} {c : Chunk} (h : c.data_size + s.bytes ≤ 2 ^ 32) : Countable s c := by
  rw [Countable, getNumBlocks_eq h]
  exact Option.some_ne_none _

theorem countable_doneChunk (s : SkeinSize) : Countable s doneChunk :=
  countable_of_le (by rcases s.bytes_cases with h | h | h <;> rw [h] <;> decide)

example : getNumBlocks 33 .Skein256 = some 2 := by decide

end Threefizer
