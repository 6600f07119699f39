/-
# A header with another vector

The vector is the chain of the one encrypted block of the header, so a change
of the vector comes out of the decryption word by word: word `i` of the block
is changed by what word `i` of the vector is changed by (`replaced_block`).
`checkHeader` compares the words 0 and 2 of the block and stores word 1. It
rejects a changed vector if one of those two words is changed
(`iv_change_rejected_iff`); otherwise it accepts it, and what it stores is the
size changed by word 1.
-/
import Threefizer.TfHeader
import Threefizer.Skein3fish

namespace Threefizer

open Words

/-- `genHeader` and `encryptHeader`, then the vector replaced by `iv'`, then
`decryptHeader` and `checkHeader`: the size that is stored if the header is
accepted. -/
def checkReplaced (tf : Threefish) (key : ThreefishKey) (iv : List Word) (data_size version : ℕ)
    (iv' : List Word) : Option (Option ℕ) :=
  (genHeader (some iv) data_size key.stateSize version).bind fun header =>
    (encryptHeader tf key header).bind fun header =>
      (decryptHeader tf key (iv' ++ stripIV header key.stateSize)).map (checkHeader · key.stateSize)

variable {tf : Threefish} {key : ThreefishKey} {iv iv' : List Word} {n v : ℕ}

theorem getD_xorBlock {a b : List Word} {i : ℕ} (ha : i < a.length) (hb : i < b.length) :
    (xorBlock a b).getD i 0 = a.getD i 0 ^^^ b.getD i 0 := by
  simp [xorBlock, List.getD_eq_getElem?_getD, ha, hb]

/-- What is mixed in twice and differs leaves a difference. -/
theorem xor_xor_eq_self_iff {a x y : Word} : a ^^^ x ^^^ y = a ↔ y = x := by
  rw [UInt64.xor_assoc]
  constructor
  · intro h
    have h0 : x ^^^ y = 0 := by
      calc x ^^^ y = a ^^^ (a ^^^ (x ^^^ y)) := by rw [← UInt64.xor_assoc, UInt64.xor_self, UInt64.zero_xor]
        _ = 0 := by rw [h, UInt64.xor_self]
    calc y = x ^^^ (x ^^^ y) := by rw [← UInt64.xor_assoc, UInt64.xor_self, UInt64.zero_xor]
      _ = x := by rw [h0, UInt64.xor_zero]
  · rintro rfl
    rw [UInt64.xor_self, UInt64.xor_zero]

/-- The header block under another vector. -/
theorem replaced_block (hinv : tf.Inverts key) (hiv : iv.length = key.stateSize.words)
    (hiv' : iv'.length = key.stateSize.words) (hn : 1 < n) (hv : v = 1 ∨ v = 2) :
    checkReplaced tf key iv n v iv' =
      some (checkHeader (iv' ++ xorBlock (xorBlock (headerBlock n key.stateSize v) iv) iv') key.stateSize) := by
  have hb := length_headerBlock n key.stateSize v
  have hx := length_xorBlock hb hiv
  have hE := tf.encrypt_length key _ hx
  rw [checkReplaced, genHeader_eq hiv hn hv, Option.bind_some, encryptHeader_eq hiv hb, Option.bind_some, stripIV,
    ← hiv, List.drop_left, decryptHeader_eq hiv' hE, hinv _ hx]
  rfl

/-- The check looks at the changes of the words 0 and 2, and stores the size
with the change of word 1. -/
theorem checkReplaced_eq (hinv : tf.Inverts key) (hiv : iv.length = key.stateSize.words)
    (hiv' : iv'.length = key.stateSize.words) (hn : 1 < n) (hv : v = 1 ∨ v = 2) :
    checkReplaced tf key iv n v iv' = some (
      if iv'.getD 0 0 = iv.getD 0 0 ∧ iv'.getD 2 0 = iv.getD 2 0 then
        some (UInt64.ofNat n ^^^ iv.getD 1 0 ^^^ iv'.getD 1 0).toNat
      else none) := by
  have hw : 4 ≤ key.stateSize.words := by rcases key.stateSize.words_cases with h | h | h <;> omega
  set b := headerBlock n key.stateSize v with hb
  have hlen : b.length = key.stateSize.words := length_headerBlock ..
  have hlen' : (xorBlock b iv).length = key.stateSize.words := length_xorBlock hlen hiv
  have hget : ∀ i < 4, (iv' ++ xorBlock (xorBlock b iv) iv').getD (key.stateSize.words + i) 0 =
      b.getD i 0 ^^^ iv.getD i 0 ^^^ iv'.getD i 0 := by
    intro i hi
    rw [← getD_xorBlock (by omega) (by omega), ← getD_xorBlock (by omega) (by omega)]
    simp [List.getD_eq_getElem?_getD, List.getElem?_append_right, hiv']
  have h0 : b.getD 0 0 = MAGIC_NUMBER := rfl
  have h1 : b.getD 1 0 = UInt64.ofNat n := rfl
  have h2 : b.getD 2 0 = UInt64.ofNat key.stateSize.bits := rfl
  rw [replaced_block hinv hiv hiv' hn hv]
  simp only [checkHeader]
  rw [hget 0 (by decide), hget 1 (by decide), hget 2 (by decide), h0, h1, h2]
  simp only [xor_xor_eq_self_iff]

/-- A changed vector is rejected, and the vector of the header accepted with
its size, exactly if the vectors are equal or differ in word 0 or in word 2. -/
theorem iv_change_rejected_iff (tf : Threefish) (key : ThreefishKey) (iv iv' : List Word) (n v : ℕ)
    (hinv : tf.Inverts key) (hiv : iv.length = key.stateSize.words) (hiv' : iv'.length = key.stateSize.words)
    (hn : 2 ≤ n) (h64 : n < 2 ^ 64) (hv : v = 1 ∨ v = 2) :
    checkReplaced tf key iv n v iv' = some (if iv' = iv then some n else none) ↔
      iv' = iv ∨ iv'.getD 0 0 ≠ iv.getD 0 0 ∨ iv'.getD 2 0 ≠ iv.getD 2 0 := by
  rw [checkReplaced_eq hinv hiv hiv' hn hv]
  by_cases heq : iv' = iv
  · rw [heq, if_pos ⟨rfl, rfl⟩, if_pos rfl, xor_xor_eq_self_iff.mpr rfl, UInt64.toNat_ofNat_of_lt' h64]
    exact iff_of_true rfl (Or.inl rfl)
  · rw [if_neg heq, Option.some_inj]
    by_cases hsame : iv'.getD 0 0 = iv.getD 0 0 ∧ iv'.getD 2 0 = iv.getD 2 0
    · rw [if_pos hsame]
      refine iff_of_false (Option.some_ne_none _) ?_
      rintro (h | h | h)
      · exact heq h
      · exact h hsame.1
      · exact h hsame.2
    · rw [if_neg hsame]
      exact iff_of_true rfl (Or.inr (not_and_or.mp hsame))

/-- A vector with another word 0, for a header of a file of 1000 bytes. -/
theorem iv_change_rejected_sample :
    checkReplaced Skein3fish.threefish ⟨.Skein256, [1, 2, 3, 4], [5, 6]⟩ [10, 11, 12, 13] 1000 2 [9, 11, 12, 13] =
      some none :=
  (iv_change_rejected_iff Skein3fish.threefish ⟨.Skein256, [1, 2, 3, 4], [5, 6]⟩ [10, 11, 12, 13] [9, 11, 12, 13]
    1000 2 (Skein3fish.threefish_inverts _) rfl rfl (by decide) (by decide) (Or.inr rfl)).mpr
    (Or.inr (Or.inl (by decide)))

/-- A vector with another word 1 and another word 3 is accepted, with another size. -/
theorem iv_change_accepted : ¬ ∀ (tf : Threefish) (key : ThreefishKey) (iv iv' : List Word) (n v : ℕ),
    tf.Inverts key → iv.length = key.stateSize.words → iv'.length = key.stateSize.words → 2 ≤ n → n < 2 ^ 64 →
    (v = 1 ∨ v = 2) → checkReplaced tf key iv n v iv' = some (if iv' = iv then some n else none) := by
  intro h
  have haccepted := h Skein3fish.threefish ⟨.Skein256, [1, 2, 3, 4], [5, 6]⟩ [10, 11, 12, 13] [10, 0, 12, 0] 1000 2
    (Skein3fish.threefish_inverts _) rfl rfl (by decide) (by decide) (Or.inr rfl)
  rw [checkReplaced_eq (Skein3fish.threefish_inverts _) rfl rfl (by decide) (Or.inr rfl)] at haccepted
  exact absurd haccepted (by decide)

end Threefizer
