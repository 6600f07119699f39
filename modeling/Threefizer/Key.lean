/-
# The keys (`key.c`, `hash.c`, `noHash.c`)

`handleKeys` makes the cipher key from the password or the key file, hashed or
as it is, gets the initialization vector, stretches a hashed key with scrypt in
the buffer it is in, and makes the MAC key from what is in that buffer then.

A password is a pointer: what follows it in memory is part of the model, since
`noHashKey` copies a whole block from it. A call that does not return, or reads
from a null pointer, is none.
-/
import Threefizer.FileIO
import Threefizer.Scrypt

namespace Threefizer

open Words

namespace Key

/-- What is in memory from a pointer on. -/
abbrev Memory := ℕ → Byte

/-- The first `n` bytes. -/
def Memory.bytes (m : Memory) (n : ℕ) : List Byte := (List.range n).map m

/-- A string of `p` and its terminator. -/
def Memory.Holds (m : Memory) (p : List Byte) : Prop :=
  (∀ (i : ℕ) (h : i < p.length), m i = p.get ⟨i, h⟩) ∧ m p.length = 0

/-! ### The cipher key -/

/-- `noHashKey`: the length of the password only decides which warning is printed. -/
def noHashKey (password : Memory) (_length : ℕ) (state_size : SkeinSize) : List Word :=
  wordsOf (password.bytes state_size.bytes)

/-- `noHashBlockFromFile`. -/
def noHashBlockFromFile (fs : FileSystem) (fname : Path) (state_size : SkeinSize) : Option (List Word) :=
  (fs fname).bind fun file =>
    if file.length ≥ state_size.bytes then (readBytes file 0 state_size.bytes).map wordsOf else none

/-- The bytes `hashKeyFromFile` reads at a time. -/
def HASH_BUFFER_SIZE : ℕ := 5120000

/-- The loop of `hashKeyFromFile` with `bytes_to_hash` bytes left, the first of
them at `offset`; `o` is how a read at an offset ends. -/
def hashFileLoop (file : List Byte) (o : ℕ → Outcome) :
    ℕ → (offset bytes_to_hash : ℕ) → Skein3fish.SkeinCtx → Option Skein3fish.SkeinCtx
  | 0, _, _, _ => none
  | fuel + 1, offset, bytes_to_hash, ctx =>
    if bytes_to_hash = 0 then some ctx
    else
      let chunk_size := if bytes_to_hash < HASH_BUFFER_SIZE then bytes_to_hash else HASH_BUFFER_SIZE
      let hash_chunk := if o offset = .success then readBytes file offset chunk_size else none
      hash_chunk.bind fun chunk =>
        hashFileLoop file o fuel (offset + chunk_size) (bytes_to_hash - chunk_size)
          (Skein3fish.skeinUpdate ctx chunk)

/-- `hashKeyFromFile`; every round hashes a byte. -/
def hashKeyFromFile (fs : FileSystem) (o : ℕ → Outcome) (fname : Path) (state_size : SkeinSize) :
    Option (List Word) :=
  (fs fname).bind fun file =>
    if file.length = 0 then none
    else (hashFileLoop file o (file.length + 1) 0 file.length
      (Skein3fish.configure state_size (List.replicate state_size.words 0))).map Skein3fish.skeinFinal

/-- The arguments `handleKeys` reads. -/
structure KeyArguments where
  key_file : Path
  password : Option Memory
  target_file : Path
  pw_length : ℕ
  state_size : SkeinSize
  encrypt : Bool
  hash : Bool
  hash_from_file : Bool
  legacy_hash : Bool

/-- What `handleKeys` finds outside its arguments: the files, how reads of the
key file end, the random numbers and the three allocations of `kdf_scrypt`. -/
structure Surroundings where
  fs : FileSystem
  reads : ℕ → Outcome
  rand : ℕ → Byte
  allocations : Scrypt.Allocations

variable (e : Surroundings) (args : KeyArguments)

/-- The first part of `handleKeys`: the cipher key, `some none` for a null pointer. -/
def cipherKey : Option (Option (List Word)) :=
  if args.hash = false ∧ args.hash_from_file = false then
    args.password.map fun m => some (noHashKey m args.pw_length args.state_size)
  else if args.hash = false ∧ args.hash_from_file = true then
    some (noHashBlockFromFile e.fs args.key_file args.state_size)
  else if args.hash = true ∧ args.hash_from_file = false then
    some (args.password.map fun m => Skein3fish.keyHash args.state_size (m.bytes args.pw_length))
  else some (hashKeyFromFile e.fs e.reads args.key_file args.state_size)

/-! ### The initialization vector -/

/-- `genIV`: as many random bytes as the state has bits. -/
def genIV : List Byte := (List.range args.state_size.bits).map e.rand

/-- `getIV`: the first block of the target file. -/
def getIV : Option (List Byte) :=
  (e.fs args.target_file).bind fun file => readBytes file 0 args.state_size.bytes

/-- The vector, none for a failure. -/
def iv : Option (List Byte) := if args.encrypt then some (genIV e args) else getIV e args

/-! ### `handleKeys` -/

/-- What a successful `handleKeys` has made. -/
structure Keys where
  iv : List Byte
  cipher_context : ThreefishKey
  mac_context : MacCtx Skein3fish.skein

/-- `threefizer_tweak`. -/
def threefizer_tweak : Word × Word := (0x5368616C6C206E6, 0x26520646976756C)

/-- The contexts of a cipher key; the MAC key is its hash. -/
def contexts (iv : List Byte) (cipher_key : List Word) : Keys where
  iv := iv
  cipher_context := Skein3fish.threefishSetKey args.state_size cipher_key threefizer_tweak.1 threefizer_tweak.2
  mac_context := InitMacCtx Skein3fish.skein args.encrypt args.state_size
    (Skein3fish.keyHash args.state_size ((bytesOf cipher_key).take args.state_size.bytes))

/-- The key is to be stretched. -/
def KeyArguments.Stretch (args : KeyArguments) : Prop := args.hash = true ∧ args.legacy_hash = false

instance (args : KeyArguments) : Decidable args.Stretch := inferInstanceAs (Decidable (_ ∧ _))

/-- `handleKeys`: none when it does not return, `some none` when it returns
false. The key is both the password of `kdf_scrypt` and its buffer; with one
iteration PBKDF2 is done with the password before it writes to the buffer. -/
def handleKeys (D : Scrypt.Derive) : Option (Option Keys) :=
  (cipherKey e args).bind fun
    | none => some none
    | some cipher_key =>
      match iv e args with
      | none => some none
      | some iv =>
        if args.Stretch then
          (Scrypt.kdf_scrypt D (bytesOf cipher_key) (iv.take args.state_size.bytes) Scrypt.SCRYPT_N Scrypt.SCRYPT_R
            Scrypt.SCRYPT_P e.allocations (bytesOf cipher_key)).map fun (code, buf) =>
              if code ≠ 0 then none else some (contexts args iv (wordsOf buf))
        else some (some (contexts args iv cipher_key))

variable {e : Surroundings} {args : KeyArguments} {D : Scrypt.Derive}

/-! ### Stretching -/

/-- The stretched key, with the shipped parameters. -/
def stretchedKey (D : Scrypt.Derive) (s : SkeinSize) (cipher_key : List Word) (salt : List Byte) : List Word :=
  wordsOf (Scrypt.stretched D (bytesOf cipher_key) salt Scrypt.SCRYPT_N Scrypt.SCRYPT_R Scrypt.SCRYPT_P s.bytes)

theorem length_stretchedKey (D : Scrypt.Derive) (s : SkeinSize) (cipher_key : List Word) (salt : List Byte) :
    (stretchedKey D s cipher_key salt).length = s.words := by
  have hlen : ∀ b, (Scrypt.stretched D b salt Scrypt.SCRYPT_N Scrypt.SCRYPT_R Scrypt.SCRYPT_P s.bytes).length =
      8 * s.words := by
    intro b
    rw [Scrypt.stretched, D.length_key, s.bytes_eq]
  rw [stretchedKey, length_wordsOf ⟨_, hlen _⟩, hlen, Nat.mul_div_cancel_left _ (by decide)]

theorem length_skeinFinal_words (ctx : Skein3fish.SkeinCtx) :
    (Skein3fish.skeinFinal ctx).length = ctx.skeinSize.words :=
  Skein3fish.length_processBlock _ _ List.length_replicate

theorem hashFileLoop_size {file : List Byte} {o : ℕ → Outcome} :
    ∀ {fuel offset left : ℕ} {ctx ctx' : Skein3fish.SkeinCtx},
      hashFileLoop file o fuel offset left ctx = some ctx' → ctx'.skeinSize = ctx.skeinSize
  | 0, _, _, _, _, h => by cases h
  | fuel + 1, offset, left, ctx, ctx', h => by
    simp only [hashFileLoop] at h
    split at h
    · cases h; rfl
    · obtain ⟨chunk, -, hrec⟩ := Option.bind_eq_some_iff.mp h
      exact (hashFileLoop_size hrec).trans rfl

/-- A hashed key is one block. -/
theorem length_cipherKey (hhash : args.hash = true) {cipher_key : List Word}
    (h : cipherKey e args = some (some cipher_key)) : cipher_key.length = args.state_size.words := by
  simp only [cipherKey, hhash, Bool.true_eq_false, false_and, if_false, true_and] at h
  split at h
  · obtain ⟨m, -, rfl⟩ := Option.map_eq_some_iff.mp (Option.some.inj h)
    exact length_skeinFinal_words _
  · obtain ⟨file, -, hfile⟩ := Option.bind_eq_some_iff.mp (Option.some.inj h)
    split at hfile
    · cases hfile
    · obtain ⟨ctx, hctx, rfl⟩ := Option.map_eq_some_iff.mp hfile
      rw [length_skeinFinal_words, hashFileLoop_size hctx]
      rfl

/-- The shipped parameters are accepted. -/
theorem shipped_accepted (s : SkeinSize) :
    Scrypt.Accepted Scrypt.SCRYPT_N Scrypt.SCRYPT_R Scrypt.SCRYPT_P s.bytes := by
  unfold Scrypt.Accepted
  cases s <;> decide

/-- The key is stretched, unless an allocation fails. -/
theorem handleKeys_stretch (hst : args.Stretch) {cipher_key : List Word} {v : List Byte}
    (hkey : cipherKey e args = some (some cipher_key)) (hiv : iv e args = some v) :
    handleKeys e args D = some (some (contexts args v
      (if e.allocations.All then stretchedKey D args.state_size cipher_key (v.take args.state_size.bytes)
      else cipher_key))) := by
  have hlen : (bytesOf cipher_key).length = args.state_size.bytes := by
    rw [length_bytesOf, length_cipherKey hst.1 hkey, args.state_size.bytes_eq]
  have hok := shipped_accepted args.state_size
  rw [← hlen] at hok
  have hfits : ¬ (128 * Scrypt.SCRYPT_R * Scrypt.SCRYPT_P ≥ 2 ^ 32 ∨ 256 * Scrypt.SCRYPT_R ≥ 2 ^ 32) := by decide
  simp only [handleKeys, hkey, hiv, if_pos hst, Option.bind_some, Scrypt.kdf_scrypt_accepted hok, if_neg hfits, hlen]
  by_cases ha : e.allocations.All
  · simp only [if_pos ha]
    rfl
  · simp only [if_neg ha, Option.map_some, wordsOf_bytesOf]
    rfl

/-- No key or no vector, and `handleKeys` does not return true. -/
theorem keys_of_handleKeys {keys : Keys} (h : handleKeys e args D = some (some keys)) :
    ∃ cipher_key v, cipherKey e args = some (some cipher_key) ∧ iv e args = some v := by
  obtain ⟨key, hkey, hrest⟩ := Option.bind_eq_some_iff.mp h
  cases key with
  | none => cases hrest
  | some cipher_key =>
    cases hv : iv e args with
    | none => simp only [hv] at hrest; cases hrest
    | some v => exact ⟨cipher_key, v, hkey, rfl⟩

/-- A key that is not stretched is used as it is. -/
theorem handleKeys_plain (hst : ¬ args.Stretch) {cipher_key : List Word} {v : List Byte}
    (hkey : cipherKey e args = some (some cipher_key)) (hiv : iv e args = some v) :
    handleKeys e args D = some (some (contexts args v cipher_key)) := by
  simp only [handleKeys, hkey, hiv, if_neg hst, Option.bind_some]

/-- Different keys of one block have different contexts. -/
theorem contexts_injective {args' : KeyArguments} {v v' : List Byte} {a b : List Word}
    (hs : args'.state_size = args.state_size) (ha : a.length = args.state_size.words)
    (hb : b.length = args.state_size.words)
    (h : (contexts args v a).cipher_context = (contexts args' v' b).cipher_context) : a = b := by
  have hkey := congrArg ThreefishKey.key h
  simp only [contexts, Skein3fish.threefishSetKey, hs] at hkey
  have hpair := List.append_inj' hkey rfl
  rw [← ha, List.take_length, ha, ← hb, List.take_length] at hpair
  exact hpair.1

/-! ### When there are a key and a vector -/

/-- A password, or a key file whose reads all succeed. -/
def KeyGiven (e : Surroundings) (args : KeyArguments) : Prop :=
  if args.hash_from_file then
    ∃ file, e.fs args.key_file = some file ∧ file.length ≠ 0 ∧
      ∀ k, k * HASH_BUFFER_SIZE < file.length → e.reads (k * HASH_BUFFER_SIZE) = .success
  else args.password ≠ none

/-- A random vector, or a whole block of the target file. -/
def IvGiven (e : Surroundings) (args : KeyArguments) : Prop :=
  args.encrypt = true ∨ ∃ file, e.fs args.target_file = some file ∧ args.state_size.bytes ≤ file.length

/-- The loop returns a context unless a read fails. -/
theorem hashFileLoop_isSome {file : List Byte} {o : ℕ → Outcome} :
    ∀ {fuel offset left : ℕ} {ctx : Skein3fish.SkeinCtx}, offset + left = file.length → left < fuel →
      ((hashFileLoop file o fuel offset left ctx).isSome ↔
        ∀ k, offset + k * HASH_BUFFER_SIZE < file.length → o (offset + k * HASH_BUFFER_SIZE) = .success)
  | 0, _, _, _, _, hfuel => absurd hfuel (Nat.not_lt_zero _)
  | fuel + 1, offset, left, ctx, hlen, hfuel => by
    have hbuf : 0 < HASH_BUFFER_SIZE := by decide
    rw [hashFileLoop]
    by_cases h0 : left = 0
    · rw [if_pos h0]
      refine iff_of_true rfl fun k hk => ?_
      omega
    rw [if_neg h0]
    generalize hc : (if left < HASH_BUFFER_SIZE then left else HASH_BUFFER_SIZE) = chunk_size
    have hmax : HASH_BUFFER_SIZE ≤ READ_MAX := by decide
    obtain ⟨hle, hpos, hsize⟩ : chunk_size ≤ left ∧ 0 < chunk_size ∧
        (chunk_size = HASH_BUFFER_SIZE ∨ chunk_size = left ∧ left < HASH_BUFFER_SIZE) := by
      split at hc <;> omega
    have hnext : ∀ k, chunk_size = HASH_BUFFER_SIZE →
        offset + (k + 1) * HASH_BUFFER_SIZE = offset + chunk_size + k * HASH_BUFFER_SIZE := by
      intro k hchunk
      rw [Nat.succ_mul]
      omega
    have hread : chunk_size ≤ READ_MAX := by omega
    by_cases ho : o offset = .success
    · simp only [if_pos ho, readBytes_eq hpos (show offset + chunk_size ≤ file.length by omega) hread,
        Option.bind_some]
      rw [hashFileLoop_isSome (by omega) (by omega)]
      -- the reads from here on are this one and those of the next rounds
      constructor
      · intro h k hk
        cases k with
        | zero => simpa using ho
        | succ k =>
          have hchunk : chunk_size = HASH_BUFFER_SIZE := by
            rw [Nat.succ_mul] at hk
            omega
          rw [hnext k hchunk] at hk ⊢
          exact h k hk
      · intro h k hk
        have hchunk : chunk_size = HASH_BUFFER_SIZE := by omega
        rw [← hnext k hchunk] at hk ⊢
        exact h (k + 1) hk
    · simp only [if_neg ho, Option.bind_none]
      refine iff_of_false Bool.false_ne_true fun h => ho ?_
      simpa using h 0 (by omega)

theorem exists_cipherKey_iff (hhash : args.hash = true) :
    (∃ cipher_key, cipherKey e args = some (some cipher_key)) ↔ KeyGiven e args := by
  simp only [cipherKey, KeyGiven, hhash, Bool.true_eq_false, false_and, if_false, true_and]
  cases hfile : args.hash_from_file with
  | false =>
    simp only [if_true, Bool.false_eq_true, if_false, Option.some.injEq, Option.map_eq_some_iff, ne_eq]
    rw [← ne_eq, Option.ne_none_iff_exists']
    exact ⟨fun ⟨_, m, hm, _⟩ => ⟨m, hm⟩, fun ⟨m, hm⟩ => ⟨_, m, hm, rfl⟩⟩
  | true =>
    simp only [Bool.true_eq_false, if_false, if_true, hashKeyFromFile, Option.some.injEq, Option.bind_eq_some_iff]
    constructor
    · rintro ⟨_, file, hfs, hloop⟩
      by_cases h0 : file.length = 0
      · rw [if_pos h0] at hloop
        cases hloop
      · rw [if_neg h0] at hloop
        obtain ⟨ctx, hctx, -⟩ := Option.map_eq_some_iff.mp hloop
        have hsome := Option.isSome_iff_exists.mpr ⟨ctx, hctx⟩
        refine ⟨file, hfs, h0, fun k hk => ?_⟩
        have hread := (hashFileLoop_isSome (Nat.zero_add _) (Nat.lt_succ_self _)).mp hsome k (by omega)
        rwa [Nat.zero_add] at hread
    · rintro ⟨file, hfs, h0, hreads⟩
      have hloop : (hashFileLoop file e.reads (file.length + 1) 0 file.length
          (Skein3fish.configure args.state_size (List.replicate args.state_size.words 0))).isSome := by
        refine (hashFileLoop_isSome (Nat.zero_add _) (Nat.lt_succ_self _)).mpr fun k hk => ?_
        rw [Nat.zero_add] at hk ⊢
        exact hreads k hk
      obtain ⟨ctx, hctx⟩ := Option.isSome_iff_exists.mp hloop
      refine ⟨Skein3fish.skeinFinal ctx, file, hfs, ?_⟩
      rw [if_neg h0, hctx, Option.map_some]

theorem exists_iv_iff : (∃ v, iv e args = some v) ↔ IvGiven e args := by
  unfold iv IvGiven getIV
  cases henc : args.encrypt with
  | true => exact iff_of_true ⟨_, rfl⟩ (Or.inl rfl)
  | false =>
    simp only [Bool.false_eq_true, if_false, false_or, Option.bind_eq_some_iff]
    constructor
    · rintro ⟨v, file, hfs, hread⟩
      refine ⟨file, hfs, ?_⟩
      simpa using (readBytes_some hread).1
    · rintro ⟨file, hfs, hlen⟩
      exact ⟨_, file, hfs, readBytes_block (by omega)⟩

/-! ### A password -/

/-- The string in memory, all the bytes after it equal to `rest`. -/
def pointerTo (password : List Byte) (rest : Byte) : Memory :=
  fun i => if i = password.length then 0 else password.getD i rest

/-- The arguments of a run with the password at `m`, hashed or not; the target
is the path `[1]`. -/
def passwordArguments (password : List Byte) (s : SkeinSize) (m : Memory) (encrypt hash : Bool) :
    KeyArguments where
  key_file := []
  password := some m
  target_file := [1]
  pw_length := password.length
  state_size := s
  encrypt := encrypt
  hash := hash
  hash_from_file := false
  legacy_hash := false

/-- The password of the sample: "hunter2". -/
def samplePassword : List Byte := [104, 117, 110, 116, 101, 114, 50]

end Key

end Threefizer
