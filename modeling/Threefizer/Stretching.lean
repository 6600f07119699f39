/-
# Key stretching is never skipped silently

`kdf_scrypt` returns 0 also when one of its allocations fails: the failed checks
set the code, the failed allocations do not. The buffer then keeps what it had,
which for `handleKeys` is the key that was to be stretched, and the file is
encrypted with it.

Main result: `stretched_iff`.
-/
import Threefizer.Key

namespace Threefizer

open Words

namespace Key

/-- The contexts are those of the stretched key, whatever PBKDF2 leaves in its buffers. -/
def StretchedOnly (e : Surroundings) (args : KeyArguments) : Prop :=
  ∀ D keys, handleKeys e args D = some (some keys) →
    ∃ cipher_key v, cipherKey e args = some (some cipher_key) ∧ iv e args = some v ∧
      keys = contexts args v (stretchedKey D args.state_size cipher_key (v.take args.state_size.bytes))

variable {e : Surroundings} {args : KeyArguments}

/-- A stretched key can be any block, also one that is not the key. -/
theorem exists_stretchedKey_ne (s : SkeinSize) (cipher_key : List Word) (salt : List Byte) :
    ∃ D, stretchedKey D s cipher_key salt ≠ cipher_key := by
  by_contra hall
  push Not at hall
  have hblock : ∀ b : Byte, List.replicate s.bytes b = bytesOf cipher_key := by
    intro b
    rw [← hall (Scrypt.Derive.const b), stretchedKey]
    exact (bytesOf_wordsOf (by simp [s.bytes_eq])).symm
  exact absurd (List.replicate_right_injective s.bytes_pos.ne' ((hblock 0).trans (hblock 1).symm)) (by decide)

theorem stretchedOnly_iff (hst : args.Stretch) :
    StretchedOnly e args ↔ e.allocations.All ∨ ¬ (KeyGiven e args ∧ IvGiven e args) := by
  constructor
  · intro h
    by_contra hne
    obtain ⟨hfail, hgiven⟩ := not_or.mp hne
    obtain ⟨hkey, hvec⟩ := not_not.mp hgiven
    obtain ⟨cipher_key, hck⟩ := (exists_cipherKey_iff hst.1).mpr hkey
    obtain ⟨v, hv⟩ := exists_iv_iff.mpr hvec
    obtain ⟨D, hD⟩ := exists_stretchedKey_ne args.state_size cipher_key (v.take args.state_size.bytes)
    have hrun := handleKeys_stretch (D := D) hst hck hv
    rw [if_neg hfail] at hrun
    obtain ⟨ck', v', hck', hv', heq⟩ := h D _ hrun
    cases hck.symm.trans hck'
    cases hv.symm.trans hv'
    exact hD (contexts_injective rfl (length_stretchedKey _ _ _ _) (length_cipherKey hst.1 hck)
      (congrArg Keys.cipher_context heq).symm)
  · intro h D keys hrun
    obtain ⟨cipher_key, v, hck, hv⟩ := keys_of_handleKeys hrun
    refine ⟨cipher_key, v, hck, hv, ?_⟩
    have hall : e.allocations.All := by
      rcases h with h | h
      · exact h
      · exact absurd ⟨(exists_cipherKey_iff hst.1).mp ⟨_, hck⟩, exists_iv_iff.mp ⟨_, hv⟩⟩ h
    rw [handleKeys_stretch hst hck hv, if_pos hall] at hrun
    exact (Option.some.inj (Option.some.inj hrun)).symm

/-- When the 0 of `kdf_scrypt` and the true of `handleKeys` mean that the key
was stretched. -/
theorem stretched_iff (D : Scrypt.Derive) (passwd salt : List Byte) (N r p : ℕ) (a : Scrypt.Allocations)
    (buflen : ℕ) (e : Surroundings) (args : KeyArguments) (hst : args.Stretch) :
    (Scrypt.Stretches D passwd salt N r p a buflen ↔ buflen = 0 ∨ ¬ Scrypt.Accepted N r p buflen ∨ a.All) ∧
      (StretchedOnly e args ↔ e.allocations.All ∨ ¬ (KeyGiven e args ∧ IvGiven e args)) :=
  ⟨Scrypt.stretches_iff, stretchedOnly_iff hst⟩

/-! ### A run out of memory -/

/-- `threefizer -e` with the password of the sample. -/
def sampleArguments : KeyArguments :=
  passwordArguments samplePassword .Skein256 (pointerTo samplePassword 0) true true

/-- There is no file, and the allocation of `V` fails or not. -/
def sampleSurroundings (V : Bool) : Surroundings where
  fs := fun _ => none
  reads := fun _ => .success
  rand := fun i => UInt8.ofNat i
  allocations := ⟨true, true, V⟩

theorem sample_given (V : Bool) :
    KeyGiven (sampleSurroundings V) sampleArguments ∧ IvGiven (sampleSurroundings V) sampleArguments :=
  ⟨Option.some_ne_none _, Or.inl rfl⟩

/-- With the memory the sample is stretched, without it is not. -/
theorem stretched_iff_sample :
    StretchedOnly (sampleSurroundings true) sampleArguments ∧
      ¬ StretchedOnly (sampleSurroundings false) sampleArguments := by
  have h := fun V => stretched_iff Scrypt.pbkdf2 [] [] 1 1 1 ⟨true, true, V⟩ 32 (sampleSurroundings V)
    sampleArguments ⟨rfl, rfl⟩
  refine ⟨(h true).2.mpr (Or.inl ⟨rfl, rfl, rfl⟩), fun hno => ?_⟩
  rcases (h false).2.mp hno with hall | hnone
  · exact absurd hall.2.2 Bool.false_ne_true
  · exact hnone (sample_given false)

/-- The 64 MiB of `V` are not there: `kdf_scrypt` returns 0 and has not
touched the buffer, and `handleKeys` goes on with the key it has. -/
theorem stretching_skipped :
    (∀ (D : Scrypt.Derive) (passwd salt buf : List Byte), buf.length = 32 →
      Scrypt.kdf_scrypt D passwd salt Scrypt.SCRYPT_N Scrypt.SCRYPT_R Scrypt.SCRYPT_P ⟨true, true, false⟩ buf =
        some (0, buf)) ∧
    (∀ (D : Scrypt.Derive) (passwd salt : List Byte),
      ¬ Scrypt.Stretches D passwd salt Scrypt.SCRYPT_N Scrypt.SCRYPT_R Scrypt.SCRYPT_P ⟨true, true, false⟩ 32) ∧
    ¬ StretchedOnly (sampleSurroundings false) sampleArguments := by
  have hok : Scrypt.Accepted Scrypt.SCRYPT_N Scrypt.SCRYPT_R Scrypt.SCRYPT_P 32 := shipped_accepted .Skein256
  have hno : ¬ (Scrypt.Allocations.mk true true false).All := by decide
  refine ⟨fun D passwd salt buf hlen => ?_, fun D passwd salt h => ?_, fun h => ?_⟩
  · rw [Scrypt.kdf_scrypt_accepted (by rw [hlen]; exact hok), if_neg hno]
  · rcases Scrypt.stretches_iff.mp h with h | h | h
    · exact absurd h (by decide)
    · exact h hok
    · exact hno h
  · rcases (stretchedOnly_iff ⟨rfl, rfl⟩).mp h with h | h
    · exact hno h
    · exact h (sample_given false)

end Key

end Threefizer
