/-
# Absorbing a stream in blocks, the last block kept back

A state takes in blocks of `w` elements, and the caller feeds it pieces of any
length. Some constructions treat the last block in a special way, so a block
is taken in only when something follows it: `absorb` takes in every block of
the stream but the last one, which is left over even when it is full.

What is left over goes in front of the next piece. Then the pieces may be cut
anywhere: feeding them one after the other is feeding them at once
(`absorb_append`). What is left over always fits into one block
(`length_absorb`), and the last element of what was fed is the last one in it
(`absorb_concat`).
-/
import Mathlib.Data.List.Basic
import Mathlib.Tactic.Common

namespace Absorb

variable {σ α : Type*} (w : ℕ) (f : σ → List α → σ)

/-- `n` blocks from the front, and what is left. -/
def run : ℕ → σ → List α → σ × List α
  | 0, c, l => (c, l)
  | n + 1, c, l => run n (f c (l.take w)) (l.drop w)

/-- All blocks but the last. -/
def absorb (c : σ) (l : List α) : σ × List α := run w f ((l.length - 1) / w) c l

variable {w} {f} {c : σ} {l : List α}

theorem run_add : ∀ (m n : ℕ) (c : σ) (l : List α),
    run w f (m + n) c l = run w f n (run w f m c l).1 (run w f m c l).2
  | 0, n, c, l => by rw [Nat.zero_add]; rfl
  | m + 1, n, c, l => by
    rw [Nat.add_right_comm]
    exact run_add m n (f c (l.take w)) (l.drop w)

/-- A stream of at most one block is left as it is. -/
theorem absorb_of_le (hw : 0 < w) (h : l.length ≤ w) : absorb w f c l = (c, l) := by
  have hzero : (l.length - 1) / w = 0 := Nat.div_eq_of_lt (by omega)
  rw [absorb, hzero]
  rfl

/-- From a longer one the first block is taken. -/
theorem absorb_of_lt (hw : 0 < w) (h : w < l.length) :
    absorb w f c l = absorb w f (f c (l.take w)) (l.drop w) := by
  have hcount : (l.length - 1) / w = (l.length - w - 1) / w + 1 := by
    have hsplit : l.length - 1 = (l.length - w - 1) + w := by omega
    rw [hsplit, Nat.add_div_right _ hw]
  rw [absorb, hcount, absorb, List.length_drop]
  rfl

/-- **What is left over goes in front of what follows.** -/
theorem absorb_append (hw : 0 < w) (c : σ) (a b : List α) :
    absorb w f c (a ++ b) = absorb w f (absorb w f c a).1 ((absorb w f c a).2 ++ b) := by
  rcases Nat.lt_or_ge w a.length with h | h
  · have hlt : w < (a ++ b).length := by rw [List.length_append]; omega
    have hdrop : (a.drop w).length < a.length := by rw [List.length_drop]; omega
    rw [absorb_of_lt hw hlt, absorb_of_lt hw h, List.take_append_of_le_length (Nat.le_of_lt h),
      List.drop_append_of_le_length (Nat.le_of_lt h)]
    exact absorb_append hw _ (a.drop w) b
  · rw [absorb_of_le hw h]
termination_by a.length

/-- What is left over fits into one block. -/
theorem length_absorb (hw : 0 < w) (c : σ) (l : List α) : (absorb w f c l).2.length ≤ w := by
  by_cases h : l.length ≤ w
  · rwa [absorb_of_le hw h]
  · have hdrop : (l.drop w).length < l.length := by rw [List.length_drop]; omega
    rw [absorb_of_lt hw (Nat.lt_of_not_le h)]
    exact length_absorb hw _ (l.drop w)
termination_by l.length

/-- The last element of a stream is only kept back. -/
theorem absorb_concat (hw : 0 < w) (c : σ) (l : List α) :
    ∃ c' r, ∀ x, absorb w f c (l ++ [x]) = (c', r ++ [x]) := by
  by_cases h : l.length < w
  · exact ⟨c, l, fun x => absorb_of_le hw (by rw [List.length_append, List.length_singleton]; omega)⟩
  · have hle : w ≤ l.length := Nat.le_of_not_lt h
    have hdrop : (l.drop w).length < l.length := by rw [List.length_drop]; omega
    obtain ⟨c', r, hrest⟩ := absorb_concat hw (f c (l.take w)) (l.drop w)
    refine ⟨c', r, fun x => ?_⟩
    rw [absorb_of_lt hw (by rw [List.length_append, List.length_singleton]; omega),
      List.take_append_of_le_length hle, List.drop_append_of_le_length hle, hrest]
termination_by l.length

/-- What a block leaves is left by all of them. -/
theorem run_eq {β : Type*} {p : σ → β} (hp : ∀ c blk, p (f c blk) = p c) :
    ∀ (n : ℕ) (c : σ) (l : List α), p (run w f n c l).1 = p c
  | 0, _, _ => rfl
  | n + 1, c, l => (run_eq hp n _ _).trans (hp c (l.take w))

end Absorb
