/-
# The key without hashing

`noHashKey` copies a whole block from the password. The program lets shorter
passwords through, and what it copies after their terminator is whatever is in
memory there: the key is a function of the password when the password and its
terminator fill the block, and only then.

Main result: `noHashKey_determined_iff`.
-/
import Threefizer.Key

namespace Threefizer

open Words

namespace Key

/-! ### The copied block -/

/-- Two memories with the same bytes up to `n`. -/
def Memory.AgreeBelow (m m' : Memory) (n : ℕ) : Prop := ∀ i < n, m i = m' i

@[simp] theorem length_memory_bytes (m : Memory) (n : ℕ) : (m.bytes n).length = n := by simp [Memory.bytes]

theorem bytes_eq_iff {m m' : Memory} {n : ℕ} : m.bytes n = m'.bytes n ↔ m.AgreeBelow m' n := by
  simp [Memory.bytes, Memory.AgreeBelow]

/-- The keys are the same exactly when the blocks are. -/
theorem noHashKey_eq_iff {m m' : Memory} {n n' : ℕ} {s : SkeinSize} :
    noHashKey m n s = noHashKey m' n' s ↔ m.AgreeBelow m' s.bytes := by
  rw [← bytes_eq_iff]
  have h8 : 8 ∣ s.bytes := ⟨_, s.bytes_eq⟩
  constructor
  · intro h
    have := congrArg bytesOf h
    rwa [noHashKey, noHashKey, bytesOf_wordsOf (by simpa using h8), bytesOf_wordsOf (by simpa using h8)] at this
  · intro h
    rw [noHashKey, noHashKey, h]

theorem length_noHashKey (m : Memory) (n : ℕ) (s : SkeinSize) : (noHashKey m n s).length = s.words := by
  rw [noHashKey, length_wordsOf (by simpa using ⟨_, s.bytes_eq⟩), length_memory_bytes, s.bytes_eq,
    Nat.mul_div_cancel_left _ (by decide)]

/-- A string says what is in memory up to its terminator. -/
theorem Memory.Holds.agreeBelow {m m' : Memory} {password : List Byte} (h : m.Holds password)
    (h' : m'.Holds password) : m.AgreeBelow m' (password.length + 1) := by
  intro i hi
  rcases Nat.lt_succ_iff_lt_or_eq.mp hi with hlt | rfl
  · rw [h.1 i hlt, h'.1 i hlt]
  · rw [h.2, h'.2]

theorem pointerTo_holds (password : List Byte) (rest : Byte) : (pointerTo password rest).Holds password := by
  refine ⟨fun i h => ?_, if_pos rfl⟩
  rw [pointerTo, if_neg h.ne]
  simp [List.getD_eq_getElem?_getD, h]

/-- After the terminator nothing is said. -/
theorem agreeBelow_pointerTo {password : List Byte} {n : ℕ} :
    (pointerTo password 0).AgreeBelow (pointerTo password 1) n ↔ n ≤ password.length + 1 := by
  constructor
  · intro h
    by_contra hn
    have hrest := h (password.length + 1) (by omega)
    rw [pointerTo, pointerTo, if_neg (by omega), if_neg (by omega)] at hrest
    simp [List.getD_eq_getElem?_getD] at hrest
  · intro h i hi
    exact (pointerTo_holds password 0).agreeBelow (pointerTo_holds password 1) i (by omega)

/-! ### Two runs -/

/-- The key of `noHashKey` is the same in all memories with this password. -/
def Determined (password : List Byte) (s : SkeinSize) : Prop :=
  ∀ m m' : Memory, m.Holds password → m'.Holds password →
    noHashKey m password.length s = noHashKey m' password.length s

theorem determined_iff {password : List Byte} {s : SkeinSize} :
    Determined password s ↔ s.bytes ≤ password.length + 1 := by
  constructor
  · intro h
    exact agreeBelow_pointerTo.mp (noHashKey_eq_iff.mp (h _ _ (pointerTo_holds _ 0) (pointerTo_holds _ 1)))
  · intro h m m' hm hm'
    exact noHashKey_eq_iff.mpr fun i hi => hm.agreeBelow hm' i (by omega)

/-- The arguments of a run with this password and without hashing. -/
structure KeyArguments.Plain (args : KeyArguments) (password : List Byte) (s : SkeinSize) : Prop where
  state_size : args.state_size = s
  pw_length : args.pw_length = password.length
  hash : args.hash = false
  hash_from_file : args.hash_from_file = false
  password : ∃ m, args.password = some m ∧ m.Holds password

/-- An encrypting and a decrypting run with this password derive the same keys. -/
def SameKeys (password : List Byte) (s : SkeinSize) : Prop :=
  ∀ (e e' : Surroundings) (args args' : KeyArguments) (D D' : Scrypt.Derive) (keys keys' : Keys),
    args.Plain password s → args'.Plain password s → args.encrypt = true → args'.encrypt = false →
    handleKeys e args D = some (some keys) → handleKeys e' args' D' = some (some keys') →
      keys.cipher_context = keys'.cipher_context ∧ keys.mac_context.skein_context = keys'.mac_context.skein_context

variable {e : Surroundings} {args : KeyArguments} {D : Scrypt.Derive} {password : List Byte} {s : SkeinSize}

/-- A run without hashing uses what `noHashKey` returns. -/
theorem handleKeys_noHash (h : args.Plain password s) {m : Memory} (hm : args.password = some m) {v : List Byte}
    (hv : iv e args = some v) :
    handleKeys e args D = some (some (contexts args v (noHashKey m password.length s))) := by
  refine handleKeys_plain (fun hst => absurd hst.1 (by simp [h.hash])) ?_ hv
  rw [cipherKey, if_pos ⟨h.hash, h.hash_from_file⟩, hm, h.pw_length, h.state_size, Option.map_some]

theorem noHash_of_handleKeys (h : args.Plain password s) {keys : Keys}
    (hrun : handleKeys e args D = some (some keys)) :
    ∃ m v, m.Holds password ∧ keys = contexts args v (noHashKey m password.length s) := by
  obtain ⟨m, hm, hholds⟩ := h.password
  obtain ⟨-, v, -, hv⟩ := keys_of_handleKeys hrun
  rw [handleKeys_noHash h hm hv] at hrun
  exact ⟨m, v, hholds, (Option.some.inj (Option.some.inj hrun)).symm⟩

theorem plain_passwordArguments {m : Memory} (hm : m.Holds password) (encrypt : Bool) :
    (passwordArguments password s m encrypt false).Plain password s :=
  ⟨rfl, rfl, rfl, rfl, m, rfl, hm⟩

/-- Every file is one block of zeros. -/
def blockSurroundings (s : SkeinSize) : Surroundings where
  fs := fun _ => some (List.replicate s.bytes 0)
  reads := fun _ => .success
  rand := fun _ => 0
  allocations := ⟨true, true, true⟩

theorem sameKeys_iff : SameKeys password s ↔ s.bytes ≤ password.length + 1 := by
  constructor
  · intro h
    have hgiven : ∀ m encrypt, ∃ v, iv (blockSurroundings s) (passwordArguments password s m encrypt false) = some v :=
      fun m encrypt => exists_iv_iff.mpr (Or.inr ⟨_, rfl, by simp [passwordArguments]⟩)
    obtain ⟨v, hv⟩ := hgiven (pointerTo password 0) true
    obtain ⟨v', hv'⟩ := hgiven (pointerTo password 1) false
    have hplain := plain_passwordArguments (s := s) (pointerTo_holds password 0) true
    have hplain' := plain_passwordArguments (s := s) (pointerTo_holds password 1) false
    have hsame := (h _ _ _ _ Scrypt.pbkdf2 Scrypt.pbkdf2 _ _ hplain hplain' rfl rfl (handleKeys_noHash hplain rfl hv)
      (handleKeys_noHash hplain' rfl hv')).1
    have hkey := contexts_injective (hplain'.state_size.trans hplain.state_size.symm) (length_noHashKey _ _ _)
      (length_noHashKey _ _ _) hsame
    exact agreeBelow_pointerTo.mp (noHashKey_eq_iff.mp hkey)
  · intro h e e' args args' D D' keys keys' hplain hplain' _ _ hrun hrun'
    obtain ⟨m, v, hm, rfl⟩ := noHash_of_handleKeys hplain hrun
    obtain ⟨m', v', hm', rfl⟩ := noHash_of_handleKeys hplain' hrun'
    rw [determined_iff.mpr h m m' hm hm']
    simp only [contexts, hplain.state_size, hplain'.state_size, InitMacCtx, and_self]

/-- The passwords for which the key is a function of the password. -/
theorem noHashKey_determined_iff (password : List Byte) (s : SkeinSize) :
    (Determined password s ↔ s.bytes ≤ password.length + 1) ∧ (SameKeys password s ↔ s.bytes ≤ password.length + 1) :=
  ⟨determined_iff, sameKeys_iff⟩

/-- A password of seven bytes, as `-p` allows: 24 of the 32 bytes of the key are
not its own. -/
theorem short_password_undetermined :
    ¬ Determined samplePassword .Skein256 ∧ ¬ SameKeys samplePassword .Skein256 := by
  have hshort : ¬ SkeinSize.Skein256.bytes ≤ samplePassword.length + 1 := by decide
  exact ⟨mt determined_iff.mp hshort, mt sameKeys_iff.mp hshort⟩

end Key

end Threefizer
