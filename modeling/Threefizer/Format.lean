/-
# The format of an encrypted file

What `runThreefizer` does to a file, without threads, chunks and buffers:
`encrypted` puts a header in front of the padded file, enciphers both with
Threefish in CBC mode behind the initialization vector, and appends the Skein
MAC of all that; `decrypted` takes it apart again and checks what it finds. The
primitives are the defined ones (the rounds of Threefish, Skein by UBI, scrypt
by `ROMix`), and so are the keys (`fileKey`).

A call that ends without error, with the key stretched where it was to be and no
longer temp file left behind, leaves at its destination what `encrypted` or
`decrypted` says (`encrypted_format`, `decrypted_format`), in whatever order
the threads took their steps; a file that `decrypted` refuses is not decrypted.
-/
import Threefizer.RunThreefizer
import Threefizer.ScryptMix
import Threefizer.SkeinUbi

namespace Threefizer

open Words Queue

namespace Format

/-! ### What a file is encrypted to -/

/-- The key a file is encrypted with: the first block of the secret, or its
hash, or what scrypt makes of the hash with the vector as salt. -/
def fileKey (D : Scrypt.Derive) (s : SkeinSize) (hash legacy_hash : Bool) (secret iv : List Byte) : List Byte :=
  if hash = false then secret.take s.bytes
  else if legacy_hash then SkeinUbi.skein s [] s.bits secret
  else Scrypt.scrypt D (SkeinUbi.skein s [] s.bits secret) iv Scrypt.SCRYPT_N Scrypt.SCRYPT_R Scrypt.SCRYPT_P s.bytes

/-- The key of the cipher, with the tweak of the program. -/
def cipherKey (s : SkeinSize) (key : List Byte) : ThreefishKey :=
  Skein3fish.threefishSetKey s (wordsOf key) Key.threefizer_tweak.1 Key.threefizer_tweak.2

/-- The Skein MAC, under the hash of the key. -/
def mac (s : SkeinSize) (key msg : List Byte) : List Byte :=
  SkeinUbi.skein s (SkeinUbi.skein s [] s.bits key) s.bits msg

/-- The header, in little-endian words: the magic number, the size of the file,
the state size, the version, and zeros. -/
def header (s : SkeinSize) (version size : ℕ) : List Byte := bytesOf (headerBlock size s version)

/-- `IV ‖ C ‖ T`. -/
def encrypted (s : SkeinSize) (key iv : List Byte) (version : ℕ) (file : List Byte) : List Byte :=
  let E := Skein3fish.threefishEncryptBlockWords (cipherKey s key)
  let plain := header s version file.length ++ padded file s
  let body := iv ++ bytesOf (Cbc.encrypt xorBlock E (wordsOf iv) (blocksOf s plain)).flatten
  body ++ mac s key body

/-- What `encrypted` made it of, if the tag and the header are right. -/
def decrypted (s : SkeinSize) (key file : List Byte) : Option (List Byte) :=
  let D := Skein3fish.threefishDecryptBlockWords (cipherKey s key)
  let body := padded (file.take (file.length - s.bytes)) s
  let tag := file.drop (file.length - s.bytes)
  match Cbc.decrypt xorBlock D (wordsOf (body.take s.bytes)) (blocksOf s (body.drop s.bytes)) with
  | [] => none
  | header :: data =>
    if header.getD 0 0 = MAGIC_NUMBER ∧ header.getD 2 0 = UInt64.ofNat s.bits ∧ mac s key body = tag then
      some ((bytesOf data.flatten).take (header.getD 1 0).toNat)
    else none

section

variable {s : SkeinSize} {key msg : List Byte}

/-! ### The primitives of the program -/

/-- Whole blocks in front are not padded. -/
theorem padded_append {a b : List Byte} (h : s.bytes ∣ a.length) : padded (a ++ b) s = a ++ padded b s := by
  obtain ⟨n, hn⟩ := h
  have hcount : blockCount (a ++ b).length s * s.bytes - (a ++ b).length =
      blockCount b.length s * s.bytes - b.length := by
    rw [List.length_append, hn, Nat.mul_comm s.bytes n, blockCount_add, Nat.add_mul]
    omega
  rw [padded, padded, hcount, List.append_assoc]

theorem bytesOf_keyHash (hmsg : msg.length < 2 ^ 64) :
    bytesOf (Skein3fish.keyHash s msg) = SkeinUbi.skein s [] s.bits msg := by
  rw [← SkeinApi.skeinFinal_skeinInit]
  exact @SkeinUbi.digest_eq s [] msg (by decide) hmsg s.bits

theorem length_keyHash : (Skein3fish.keyHash s msg).length = s.words := Key.length_skeinFinal_words _

/-- A MAC key is the hash of a key, and a tag is the MAC of what it is of. -/
theorem bytesOf_tag (hkey : key.length < 2 ^ 64) (hmsg : msg.length < 2 ^ 64) :
    bytesOf (Skein3fish.skein.tag s (Skein3fish.keyHash s key) msg) = mac s key msg := by
  have hne : Skein3fish.keyHash s key ≠ [] := fun h => by
    have hlen := @length_keyHash s key
    rw [h] at hlen
    exact absurd hlen.symm s.words_pos.ne'
  have hhash := bytesOf_keyHash (s := s) hkey
  have hlen : (SkeinUbi.skein s [] s.bits key).length = s.bytes := by
    rw [← hhash, length_bytesOf, length_keyHash, s.bytes_eq]
  have htake : (bytesOf (Skein3fish.keyHash s key)).take s.bytes = SkeinUbi.skein s [] s.bits key := by
    rw [hhash, ← hlen, List.take_length]
  have hapi := SkeinApi.skeinFinal_skeinMacInit s hne msg
  rw [htake, SkeinUbi.digest_eq (by rw [hlen]; rcases s.bytes_cases with h | h | h <;> omega) hmsg] at hapi
  exact hapi.symm

/-- Only the first block of a key counts. -/
theorem cipherKey_first (s : SkeinSize) (k : List Word) : cipherKey s ((bytesOf k).take s.bytes) =
    Skein3fish.threefishSetKey s k Key.threefizer_tweak.1 Key.threefizer_tweak.2 := by
  rw [cipherKey, s.bytes_eq, Call.take_bytesOf, wordsOf_bytesOf]
  unfold Skein3fish.threefishSetKey
  rw [List.take_take, Nat.min_self]

/-- The header check looks behind the vector. -/
theorem checkHeader_append {iv b : List Word} (hiv : iv.length = s.words) : checkHeader (iv ++ b) s =
    if b.getD 0 0 = MAGIC_NUMBER ∧ b.getD 2 0 = UInt64.ofNat s.bits then some (b.getD 1 0).toNat else none := by
  have hget : ∀ i, (iv ++ b).getD (s.words + i) 0 = b.getD i 0 := fun i => by
    simp [List.getD_eq_getElem?_getD, List.getElem?_append_right, hiv]
  simp only [checkHeader, hget]

theorem encryptBlockWords_eq (k : ThreefishKey) : ∀ b ∈ ofWidth k.stateSize.words,
    ThreefishBlock.threefish.threefishEncryptBlockWords k b = Skein3fish.threefishEncryptBlockWords k b :=
  fun _ hb => ThreefishBlock.encryptBlockWords_rounds k hb

theorem decryptBlockWords_eq (k : ThreefishKey) : ∀ b ∈ ofWidth k.stateSize.words,
    ThreefishBlock.threefish.threefishDecryptBlockWords k b = Skein3fish.threefishDecryptBlockWords k b :=
  fun _ hb => ThreefishBlock.decryptBlockWords_rounds k hb

/-- The header is the first block. -/
theorem blocksOf_plain (version : ℕ) (file : List Byte) :
    blocksOf s (header s version file.length ++ padded file s) =
      headerBlock file.length s version :: blocksOf s (padded file s) := by
  have hheader : ∀ b ∈ [headerBlock file.length s version], b.length = s.words := fun b hb => by
    rw [List.mem_singleton.mp hb, length_headerBlock]
  have hone : header s version file.length = bytesOf [headerBlock file.length s version].flatten := by
    rw [List.flatten_singleton, header]
  rw [hone, blocksOf_append (length_bytesOf_blocks hheader ▸ Nat.dvd_mul_left _ _), blocksOf_bytesOf hheader]
  rfl

theorem mem_plain {version : ℕ} {file : List Byte} :
    ∀ b ∈ headerBlock file.length s version :: blocksOf s (padded file s), b ∈ ofWidth s.words := by
  intro b hb
  rcases List.mem_cons.mp hb with rfl | hb
  · exact length_headerBlock _ _ _
  · exact mem_blocksOf (dvd_length_padded _ _) b hb

/-! ### There and back -/

/-- **What was encrypted is decrypted** to what it was. -/
theorem decrypted_encrypted {iv : List Byte} (hkey : key.length < 2 ^ 64) (hiv : iv.length = s.bytes) (version : ℕ)
    {file : List Byte} (hfile : file.length < 2 ^ 63) :
    decrypted s key (encrypted s key iv version file) = some file := by
  set E := Skein3fish.threefishEncryptBlockWords (cipherKey s key)
  set D := Skein3fish.threefishDecryptBlockWords (cipherKey s key)
  have hE : ∀ b ∈ ofWidth s.words, E b ∈ ofWidth s.words := Skein3fish.threefish.encrypt_length (cipherKey s key)
  have hDE : ∀ b ∈ ofWidth s.words, D (E b) = b := Skein3fish.threefish_inverts (cipherKey s key)
  have h8 : 8 ∣ iv.length := hiv ▸ (s.bytes_eq ▸ Nat.dvd_mul_right _ _)
  have hwidth : wordsOf iv ∈ ofWidth s.words := by
    show (wordsOf iv).length = s.words
    rw [length_wordsOf h8, hiv, s.bytes_eq, Nat.mul_div_cancel_left _ (by decide)]
  set plain := headerBlock file.length s version :: blocksOf s (padded file s)
  set C := Cbc.encrypt xorBlock E (wordsOf iv) plain with hC
  have hblocks : ∀ b ∈ C, b.length = s.words :=
    Cbc.encrypt_mem (S := ofWidth s.words) (fun a ha b hb => length_xorBlock ha hb) hE _ _ hwidth mem_plain
  have hcount : C.length = 1 + blockCount file.length s := by
    rw [hC, Cbc.length_encrypt, List.length_cons, length_blocksOf_padded, Nat.add_comm]
  set body := iv ++ bytesOf C.flatten
  have hlength : body.length = s.bytes + C.length * s.bytes := by
    rw [List.length_append, hiv, length_bytesOf_blocks hblocks]
  have hfits : body.length < 2 ^ 64 := by
    have hlt := blockCount_mul_lt file.length s
    rw [hlength, hcount, Nat.add_mul]
    rcases s.bytes_cases with h | h | h <;> omega
  have htag : (mac s key body).length = s.bytes := by
    rw [← bytesOf_tag hkey hfits, length_bytesOf, s.bytes_eq]
    exact congrArg (8 * ·) (Skein3fish.skein.final_length _ _ _)
  have hopen : encrypted s key iv version file = body ++ mac s key body := by
    rw [encrypted, blocksOf_plain]
  have hcut : (body ++ mac s key body).length - s.bytes = body.length := by
    rw [List.length_append, htag, Nat.add_sub_cancel]
  have hpad : padded body s = body :=
    padded_of_dvd ⟨1 + C.length, by rw [hlength, Nat.mul_add, Nat.mul_one, Nat.mul_comm C.length]⟩
  have hplain : Cbc.decrypt xorBlock D (wordsOf iv) C = plain :=
    Cbc.decrypt_encrypt (S := ofWidth s.words) (fun a ha b hb => length_xorBlock ha hb)
      (fun a ha b hb => xorBlock_cancel (ha.trans hb.symm)) hE hDE _ _ hwidth mem_plain
  have hsize : (UInt64.ofNat file.length).toNat = file.length := UInt64.toNat_ofNat_of_lt' (lt_trans hfile (by decide))
  rw [hopen, decrypted, hcut, List.take_left, List.drop_left, hpad, List.take_left' hiv, List.drop_left' hiv,
    blocksOf_bytesOf hblocks, hplain]
  refine (if_pos ⟨rfl, rfl, rfl⟩).trans (congrArg some ?_)
  show (bytesOf (blocksOf s (padded file s)).flatten).take (UInt64.ofNat file.length).toNat = file
  rw [hsize, flatten_blocksOf (dvd_length_padded _ _), bytesOf_wordsOf (eight_dvd_padded _ _), padded, List.take_left]

/-! ### The keys -/

theorem length_fileKey (D : Scrypt.Derive) (hash legacy_hash : Bool) {secret : List Byte} (iv : List Byte)
    (hsecret : secret.length < 2 ^ 64) (hblock : hash = false → s.bytes ≤ secret.length) :
    (fileKey D s hash legacy_hash secret iv).length = s.bytes := by
  unfold fileKey
  by_cases hhash : hash = false
  · rw [if_pos hhash, List.length_take, Nat.min_eq_left (hblock hhash)]
  · rw [if_neg hhash]
    by_cases hlegacy : legacy_hash = true
    · rw [if_pos hlegacy, ← bytesOf_keyHash hsecret, length_bytesOf, length_keyHash, s.bytes_eq]
    · rw [if_neg hlegacy, Scrypt.scrypt, D.length_key]

/-- What is stretched in the buffer. -/
theorem bytesOf_stretchedKey (D : Scrypt.Derive) (s : SkeinSize) (k : List Word) (salt : List Byte) :
    bytesOf (Key.stretchedKey D s k salt) =
      Scrypt.scrypt D (bytesOf k) salt Scrypt.SCRYPT_N Scrypt.SCRYPT_R Scrypt.SCRYPT_P s.bytes := by
  have hlen : ∀ p m, 8 ∣ (D.key p m s.bytes).length := fun p m => by
    rw [D.length_key, s.bytes_eq]
    exact Nat.dvd_mul_right _ _
  rw [Key.stretchedKey, Scrypt.stretched, bytesOf_wordsOf (hlen _ _), ← Scrypt.stretched,
    Scrypt.stretched_eq_scrypt (Key.shipped_accepted s)]

end

end Format

namespace Call

variable {c : Call} {D : Scrypt.Derive}

/-- The password or the content of the key file. -/
def secret (c : Call) : Option (List Byte) :=
  if c.args.hash_from_file then c.e.fs c.args.key_file else c.args.password.map (·.bytes c.keyBytes)

/-- The secret as a key, before it is stretched. -/
theorem cipherKey_secret {k : List Word} {K : List Byte} (hK : c.secret = some K) (hlen : K.length < 2 ^ 64)
    (hck : Key.cipherKey c.e c.args = some (some k)) :
    bytesOf k = (if c.args.hash = false then K.take c.args.state_size.bytes
      else SkeinUbi.skein c.args.state_size [] c.args.state_size.bits K) ∧
    (c.args.hash = false → c.args.state_size.bytes ≤ K.length) := by
  have h8 : 8 ∣ c.args.state_size.bytes := c.args.state_size.bytes_eq ▸ Nat.dvd_mul_right _ _
  rw [Key.cipherKey] at hck
  rw [secret, keyBytes] at hK
  cases hhash : c.args.hash <;> cases hfile : c.args.hash_from_file <;>
    simp only [hhash, hfile, if_true, if_false, true_and, and_true, and_self, Bool.true_eq_false,
      Bool.false_eq_true, Option.some.injEq] at hck hK ⊢
  · obtain ⟨m, hm, rfl⟩ := Option.map_eq_some_iff.mp hK
    rw [hm, Option.map_some, Option.some.injEq, Option.some.injEq] at hck
    have hbytes : (m.bytes c.args.state_size.bytes).length = c.args.state_size.bytes := by
      rw [Key.Memory.bytes, List.length_map, List.length_range]
    refine ⟨?_, fun _ => hbytes.ge⟩
    rw [← hck, Key.noHashKey, bytesOf_wordsOf (hbytes.symm ▸ h8), List.take_of_length_le hbytes.le]
  · obtain ⟨K', hK', hck⟩ := Option.bind_eq_some_iff.mp hck
    obtain rfl : K' = K := Option.some.inj (hK'.symm.trans hK)
    by_cases hlong : K'.length ≥ c.args.state_size.bytes
    · rw [if_pos hlong, readBytes_block (by omega)] at hck
      refine ⟨?_, fun _ => hlong⟩
      have htake : (K'.take c.args.state_size.bytes).length = c.args.state_size.bytes := by
        rw [List.length_take, Nat.min_eq_left hlong]
      rw [← Option.some.inj hck, List.drop_zero, bytesOf_wordsOf (htake.symm ▸ h8)]
    · rw [if_neg hlong] at hck
      cases hck
  · obtain ⟨m, hm, rfl⟩ := Option.map_eq_some_iff.mp hK
    rw [hm, Option.map_some, Option.some.injEq] at hck
    rw [← hck]
    exact ⟨Format.bytesOf_keyHash hlen, False.elim⟩
  · obtain ⟨K', hK', rfl⟩ := Key.hashKeyFromFile_some hck
    obtain rfl : K' = K := Option.some.inj (hK'.symm.trans hK)
    exact ⟨Format.bytesOf_keyHash hlen, False.elim⟩

/-- The contexts `handleKeys` makes are those of the key of the file. -/
theorem keys_format {v : List Byte} {k : List Word} {K : List Byte}
    (halloc : c.args.Stretch → c.e.allocations.All) (hK : c.secret = some K) (hlen : K.length < 2 ^ 64)
    (hkeys : Key.handleKeys c.e c.args D = some (some (Key.contexts c.args v k))) :
    let s := c.args.state_size
    let key := Format.fileKey D s c.args.hash c.args.legacy_hash K (v.take s.bytes)
    Key.iv c.e c.args = some v ∧ key.length = s.bytes ∧ (c.job v k).tf_key = Format.cipherKey s key ∧
      (c.job v k).mac_key = Skein3fish.keyHash s key := by
  intro s key
  obtain ⟨k₀, v₀, hck, hv, heq⟩ := Key.handleKeys_some hkeys
  obtain rfl : v = v₀ := congrArg Key.Keys.iv heq
  obtain ⟨hk₀, hblock⟩ := cipherKey_secret hK hlen hck
  have hkey : key.length = s.bytes := Format.length_fileKey D _ _ _ hlen hblock
  obtain ⟨htf, hmac⟩ := job_keys heq
  set k' := if c.args.Stretch ∧ c.e.allocations.All then Key.stretchedKey D s k₀ (v.take s.bytes) else k₀
  have hk' : bytesOf k' = key := by
    show bytesOf (if c.args.Stretch ∧ c.e.allocations.All then _ else _) = Format.fileKey _ _ _ _ _ _
    unfold Format.fileKey
    by_cases hhash : c.args.hash = false
    · rw [if_neg (fun h => absurd (h.1.1.symm.trans hhash) (by decide)), hk₀, if_pos hhash, if_pos hhash]
    · rw [if_neg hhash] at hk₀ ⊢
      by_cases hlegacy : c.args.legacy_hash = true
      · rw [if_neg (fun h => absurd (hlegacy.symm.trans h.1.2) (by decide)), hk₀, if_pos hlegacy]
      · have hst : c.args.Stretch := ⟨by simpa using hhash, by simpa using hlegacy⟩
        rw [if_pos ⟨hst, halloc hst⟩, if_neg hlegacy, Format.bytesOf_stretchedKey, hk₀]
  have htake : (bytesOf k').take s.bytes = key := by rw [hk', ← hkey, List.take_length]
  refine ⟨hv, hkey, htf.trans ?_, hmac.trans ?_⟩
  · rw [← htake]
    exact (Format.cipherKey_first s k').symm
  · show Skein3fish.keyHash s ((bytesOf k').take s.bytes) = _
    rw [htake]

/-! ### Encryption -/

/-- The encrypted file of the program is the one of the format. -/
theorem image_format {v : List Byte} {k : List Word} {key iv : List Byte}
    (htf : (c.job v k).tf_key = Format.cipherKey c.args.state_size key)
    (hmac : (c.job v k).mac_key = Skein3fish.keyHash c.args.state_size key)
    (hkey : key.length = c.args.state_size.bytes) (hiv : iv.length = c.args.state_size.bytes)
    (hpos : 0 < c.file.length) (hfits : c.file.length < 2 ^ 63) :
    (c.job v k).image (wordsOf iv) =
      Format.encrypted c.args.state_size key iv (if c.args.legacy_hash then 1 else 2) c.file := by
  set s := c.args.state_size
  set version := if c.args.legacy_hash then 1 else 2
  have h8 : 8 ∣ iv.length := hiv ▸ (s.bytes_eq ▸ Nat.dvd_mul_right _ _)
  have hwidth : (wordsOf iv).length = s.words := by
    rw [length_wordsOf h8, hiv, s.bytes_eq, Nat.mul_div_cancel_left _ (by decide)]
  have hplain : (c.job v k).plainBlocks = blocksOf s (Format.header s version c.file.length ++ padded c.file s) :=
    (Format.blocksOf_plain version c.file).symm
  have hcipher : (c.job v k).cipherBlocks (wordsOf iv) =
      Cbc.encrypt xorBlock (Skein3fish.threefishEncryptBlockWords (Format.cipherKey s key)) (wordsOf iv)
        (blocksOf s (Format.header s version c.file.length ++ padded c.file s)) := by
    rw [← hplain, Job.cipherBlocks, htf]
    exact Cbc.encrypt_congr (S := ofWidth s.words) (fun a ha b hb => length_xorBlock ha hb)
      (Skein3fish.threefish.encrypt_length (Format.cipherKey s key)) (Format.encryptBlockWords_eq (Format.cipherKey s key)) _ _
      hwidth Format.mem_plain
  have hbody : (c.job v k).macInput (wordsOf iv) = iv ++ bytesOf (Cbc.encrypt xorBlock
      (Skein3fish.threefishEncryptBlockWords (Format.cipherKey s key)) (wordsOf iv)
        (blocksOf s (Format.header s version c.file.length ++ padded c.file s))).flatten := by
    rw [Job.macInput, hcipher, bytesOf_append, bytesOf_wordsOf h8]
  have hlength : ((c.job v k).macInput (wordsOf iv)).length < 2 ^ 64 := by
    have hbig := (image_big (J := c.job v k) hwidth hpos hfits).2
    rw [Job.image, List.length_append] at hbig
    omega
  have htag : bytesOf ((c.job v k).sk.tag (c.job v k).state_size (c.job v k).mac_key
      ((c.job v k).macInput (wordsOf iv))) = Format.mac s key ((c.job v k).macInput (wordsOf iv)) := by
    rw [hmac]
    refine Format.bytesOf_tag ?_ hlength
    rw [hkey]
    rcases s.bytes_cases with h | h | h <;> omega
  rw [Job.image, htag, hbody]
  rfl

/-- **An encryption that ends without error has left the file in its format**,
under the key of the secret and the random vector, if the key was stretched
where it was to be and no longer temp file had been left behind. -/
theorem encrypted_format (hG : c.Given) (henc : c.args.encrypt = true)
    (halloc : c.args.Stretch → c.e.allocations.All) {K : List Byte} (hK : c.secret = some K)
    (hlen : K.length < 2 ^ 64) {fs : FileSystem} (h : c.Ends D none fs) :
    let s := c.args.state_size
    let iv := (List.range s.bytes).map c.e.rand
    let out := Format.encrypted s (Format.fileKey D s c.args.hash c.args.legacy_hash K iv) iv
      (if c.args.legacy_hash then 1 else 2) c.file
    ((c.e.fs c.temp_file_name).getD []).length ≤ out.length → fs c.destination = some out := by
  intro s iv out hleft
  generalize herr : (none : Option Error) = error at h
  cases h with
  | tooSmall => cases herr
  | noKeys => cases herr
  | @keys v k _ _ hkeys hrun =>
    subst herr
    obtain ⟨hv, hkey, htf, hmac⟩ := keys_format halloc hK hlen hkeys
    have htake : v.take s.bytes = iv := by
      rw [Key.iv, henc, if_pos rfl, Key.genIV] at hv
      rw [← Option.some.inj hv, ← List.map_take, List.take_range, Nat.min_eq_left]
      show s.bytes ≤ s.bits
      cases s <;> decide
    have hiv : (v.take s.bytes).length = s.bytes := by rw [htake, List.length_map, List.length_range]
    have hwidth : (wordsOf (v.take s.bytes)).length = s.words := by
      rw [length_wordsOf ⟨_, hiv.trans s.bytes_eq⟩, hiv, s.bytes_eq, Nat.mul_div_cancel_left _ (by decide)]
    obtain ⟨hsize, himage⟩ := encrypted_image hG henc rfl hwidth hrun
    have hout : (c.job v k).image (wordsOf (v.take s.bytes)) = out := by
      rw [image_format htf hmac hkey hiv (by omega) hG.fits, htake]
    rw [hout] at himage
    exact himage hleft

theorem encrypted_format_sample : ∃ fs, sampleEncryption.Ends Scrypt.pbkdf2 none fs ∧
    fs [1] = some (Format.encrypted .Skein256 ((Key.pointerTo Key.samplePassword 0).bytes 32)
      ((List.range 32).map UInt8.ofNat) 2 Skein3fish.sampleText) := by
  obtain ⟨fs, hends, -⟩ := sampleEncryption_ends Scrypt.pbkdf2
  refine ⟨fs, hends, ?_⟩
  exact encrypted_format sampleEncryption_given rfl (fun h => absurd h (by decide)) rfl (by decide) hends
    (Nat.zero_le _)

/-! ### Decryption -/

/-- The program's parts of a file are those of the format. -/
theorem decrypted_parts {J : Job} (hbig : isGreaterThanThreeBlocks J.file.length J.state_size = true) :
    let s := J.state_size
    let body := padded (J.file.take (J.file.length - s.bytes)) s
    body = J.authenticated ∧ wordsOf (body.take s.bytes) = (wordsOf (headerPart J.file s)).take s.words ∧
      blocksOf s (body.drop s.bytes) = J.headerChain :: J.dataBlocks := by
  intro s body
  have hlong : s.bytes * 3 < J.file.length := isGreaterThanThreeBlocks_iff.mp hbig
  have hheader : (headerPart J.file s).length = 2 * s.bytes := length_headerPart hbig
  have h8 : 8 ∣ s.bytes := s.bytes_eq ▸ Nat.dvd_mul_right _ _
  have hfirst : ((headerPart J.file s).take s.bytes).length = s.bytes := by
    rw [List.length_take, hheader]
    omega
  have hsecond : ((headerPart J.file s).drop s.bytes).length = s.bytes := by
    rw [List.length_drop, hheader]
    omega
  have hwords : wordsOf (headerPart J.file s) =
      wordsOf ((headerPart J.file s).take s.bytes) ++ wordsOf ((headerPart J.file s).drop s.bytes) := by
    rw [← wordsOf_append (hfirst.symm ▸ h8), List.take_append_drop]
  have hwidth : (wordsOf ((headerPart J.file s).take s.bytes)).length = s.words := by
    rw [length_wordsOf (hfirst.symm ▸ h8), hfirst, s.bytes_eq, Nat.mul_div_cancel_left _ (by decide)]
  have hwidth' : (wordsOf ((headerPart J.file s).drop s.bytes)).length = s.words := by
    rw [length_wordsOf (hsecond.symm ▸ h8), hsecond, s.bytes_eq, Nat.mul_div_cancel_left _ (by decide)]
  have hbody : body = J.authenticated := by
    have hcut : J.file.take (J.file.length - s.bytes) = headerPart J.file s ++ dataPart J.file s := by
      have hsum : J.file.length - s.bytes = 2 * s.bytes + (J.file.length - s.bytes - 2 * s.bytes) := by omega
      conv_lhs => rw [hsum, List.take_add]
      rfl
    show padded (J.file.take (J.file.length - s.bytes)) s = headerPart J.file s ++ padded (dataPart J.file s) s
    rw [hcut, Format.padded_append (hheader ▸ Nat.dvd_mul_left _ _)]
  have hparts : body = (headerPart J.file s).take s.bytes ++
      ((headerPart J.file s).drop s.bytes ++ padded (dataPart J.file s) s) := by
    rw [hbody, ← List.append_assoc, List.take_append_drop]
    rfl
  refine ⟨hbody, ?_, ?_⟩
  · rw [hparts, List.take_left' hfirst, hwords, List.take_left' hwidth]
  · have hone : blocksOf s ((headerPart J.file s).drop s.bytes) = [J.headerChain] := by
      have hchain : J.headerChain = wordsOf ((headerPart J.file s).drop s.bytes) := by
        show (wordsOf (headerPart J.file s)).drop s.words = _
        rw [hwords, List.drop_left' hwidth]
      rw [hchain, blocksOf, hsecond, Nat.div_self s.bytes_pos]
      show [(wordsOf ((headerPart J.file s).drop s.bytes)).take s.words] = _
      rw [List.take_of_length_le hwidth'.le]
    rw [hparts, List.drop_left' hfirst, blocksOf_append ⟨1, by rw [hsecond, Nat.mul_one]⟩, hone]
    rfl

/-- The header check reads the first block of the plaintext. -/
theorem headerSize_eq {J : Job} (hbig : isGreaterThanThreeBlocks J.file.length J.state_size = true) :
    let iv := (wordsOf (headerPart J.file J.state_size)).take J.state_size.words
    J.headerSize = checkHeader (iv ++ xorBlock (J.tf.threefishDecryptBlockWords J.tf_key J.headerChain) iv)
      J.state_size := by
  intro iv
  have hwords := length_wordsOf_headerPart hbig
  have hiv : iv.length = J.state_size.words := by
    rw [List.length_take, hwords]
    omega
  have hcopy : (checkChunk J.file J.state_size).data.take (2 * J.state_size.words) = iv ++ J.headerChain := by
    show (wordsOf (padded (headerPart J.file J.state_size) J.state_size)).take _ = iv ++ (wordsOf _).drop _
    rw [padded_of_dvd (length_headerPart hbig ▸ Nat.dvd_mul_left _ _), List.take_append_drop,
      List.take_of_length_le hwords.le]
  show checkHeader ((decryptHeader J.tf J.tf_key
    ((checkChunk J.file J.state_size).data.take (2 * J.state_size.words))).getD _) J.state_size = _
  rw [hcopy, decryptHeader_eq hiv (length_headerChain hbig), Option.getD_some]

/-- A file whose header and tag the program accepts is one of the format. -/
theorem decrypted_eq {v : List Byte} {k : List Word} {key : List Byte}
    (htf : (c.job v k).tf_key = Format.cipherKey c.args.state_size key)
    (hmac : (c.job v k).mac_key = Skein3fish.keyHash c.args.state_size key)
    (hkey : key.length = c.args.state_size.bytes) (hJ : DecryptRun.Admissible (c.job v k)) {n : ℕ}
    (hn : (c.job v k).headerSize = some n)
    (htag : (c.job v k).storedTag =
      (c.job v k).sk.tag (c.job v k).state_size (c.job v k).mac_key (c.job v k).authenticated) :
    Format.decrypted c.args.state_size key c.file = some ((c.job v k).plaintext.take n) := by
  set J := c.job v k
  set s := c.args.state_size
  set D := Skein3fish.threefishDecryptBlockWords (Format.cipherKey s key)
  obtain ⟨hbody, hvec, hblocks⟩ := decrypted_parts (J := J) hJ.big
  have hs : J.state_size = s := congrArg ThreefishKey.stateSize htf
  have hD : ∀ b ∈ ofWidth s.words, J.tf.threefishDecryptBlockWords J.tf_key b = D b := by
    rw [htf]
    exact Format.decryptBlockWords_eq (Format.cipherKey s key)
  have hlong : s.bytes * 3 < c.file.length := isGreaterThanThreeBlocks_iff.mp hJ.big
  have hchain : J.headerChain ∈ ofWidth s.words := length_headerChain hJ.big
  have hdata : ∀ b ∈ J.dataBlocks, b ∈ ofWidth s.words := mem_blocksOf (dvd_length_padded _ _)
  -- the header is the first block of the plaintext
  set iv := (wordsOf (headerPart c.file s)).take s.words
  set head := xorBlock (D J.headerChain) iv
  have hplain : Cbc.decrypt xorBlock D iv (J.headerChain :: J.dataBlocks) =
      head :: Cbc.decrypt xorBlock (J.tf.threefishDecryptBlockWords J.tf_key) J.headerChain J.dataBlocks := by
    rw [Cbc.decrypt, Cbc.decrypt_congr hD _ _ hdata]
  have hwords : (wordsOf (headerPart c.file s)).length = 2 * s.words := length_wordsOf_headerPart hJ.big
  have hivlen : iv.length = s.words := by
    rw [List.length_take, hwords]
    omega
  have hcheck : checkHeader (iv ++ head) s = some n := by
    rw [← hn, headerSize_eq hJ.big]
    show _ = checkHeader (iv ++ xorBlock (J.tf.threefishDecryptBlockWords J.tf_key J.headerChain) iv) s
    rw [hD _ hchain]
  rw [Format.checkHeader_append hivlen] at hcheck
  -- the tag is the MAC of all before it
  have hmacTag : Format.mac s key J.authenticated = macPart c.file s := by
    have hlength : J.authenticated.length < 2 ^ 64 := by
      have hfits : c.file.length + 2 * s.bytes < 2 ^ 64 := hJ.fits
      have hlt := blockCount_mul_lt (c.file.length - s.bytes) s
      rw [← hbody, length_padded, List.length_take]
      show blockCount (min (c.file.length - s.bytes) c.file.length) s * s.bytes < 2 ^ 64
      rw [Nat.min_eq_left (Nat.sub_le _ _)]
      omega
    have h8 : 8 ∣ (macPart c.file s).length := by
      have hlen : (macPart c.file s).length = s.bytes := length_macPart hJ.big
      rw [hlen, s.bytes_eq]
      exact Nat.dvd_mul_right _ _
    have hstored : bytesOf J.storedTag = macPart c.file s := bytesOf_wordsOf h8
    rw [← hstored, htag, hmac]
    refine (Format.bytesOf_tag ?_ hlength).symm
    rw [hkey]
    rcases s.bytes_cases with h | h | h <;> omega
  have hopen : Format.decrypted s key c.file =
      match Cbc.decrypt xorBlock D iv (J.headerChain :: J.dataBlocks) with
      | [] => none
      | header :: data =>
        if header.getD 0 0 = MAGIC_NUMBER ∧ header.getD 2 0 = UInt64.ofNat s.bits ∧
            Format.mac s key J.authenticated = macPart c.file s then
          some ((bytesOf data.flatten).take (header.getD 1 0).toNat)
        else none := by
    have hvec : wordsOf ((padded (c.file.take (c.file.length - s.bytes)) s).take s.bytes) = iv := hvec
    rw [← hbody, ← hblocks, ← hvec]
    rfl
  rw [hopen, hplain]
  by_cases hvalid : head.getD 0 0 = MAGIC_NUMBER ∧ head.getD 2 0 = UInt64.ofNat s.bits
  · rw [if_pos hvalid] at hcheck
    rw [← Option.some.inj hcheck]
    exact if_pos ⟨hvalid.1, hvalid.2, hmacTag⟩
  · rw [if_neg hvalid] at hcheck
    cases hcheck

/-- **A decryption that ends without error was of a file that `decrypted`
accepts**, under the key of the secret and the vector in the file, if the key was
stretched where it was to be; and it has left what the format says the file
decrypts to, if no longer temp file had been left behind. -/
theorem decrypted_format (hG : c.Given) (hdec : c.args.encrypt = false)
    (halloc : c.args.Stretch → c.e.allocations.All) {K : List Byte} (hK : c.secret = some K)
    (hlen : K.length < 2 ^ 64) {fs : FileSystem} (h : c.Ends D none fs) :
    let s := c.args.state_size
    let iv := c.file.take s.bytes
    ∃ out, Format.decrypted s (Format.fileKey D s c.args.hash c.args.legacy_hash K iv) c.file = some out ∧
      (((c.e.fs c.temp_file_name).getD []).length ≤ out.length → fs c.destination = some out) := by
  intro s iv
  generalize herr : (none : Option Error) = error at h
  cases h with
  | tooSmall => cases herr
  | noKeys => cases herr
  | @keys v k _ _ hkeys hrun =>
    obtain ⟨hv, hkey, htf, hmac⟩ := keys_format halloc hK hlen hkeys
    cases hrun with
    | tooSmall => cases herr
    | noKeys => cases herr
    | notQueued => cases herr
    | encrypted _ _ henc => exact absurd (henc.symm.trans hdec) (by decide)
    | @decrypted t hbig _ _ ht hret =>
      have hlong : isGreaterThanThreeBlocks c.file.length s = true := by
        by_contra hf
        exact hbig (Or.inr ⟨hdec, (Bool.not_eq_true _).mp hf⟩)
      have hJ : DecryptRun.Admissible (c.job v k) := by
        refine ⟨hlong, ?_⟩
        have hF := hG.fits
        show c.file.length + 2 * s.bytes < 2 ^ 64
        rcases s.bytes_cases with h | h | h <;> omega
      have htake : v.take s.bytes = iv := by
        have hfits : 0 + s.bytes ≤ c.file.length := by
          have := isGreaterThanThreeBlocks_iff.mp hlong
          omega
        rw [Key.iv, hdec, if_neg Bool.false_ne_true, Key.getIV, hG.target, Option.bind_some,
          readBytes_block hfits, List.drop_zero] at hv
        rw [← Option.some.inj hv, List.take_take, Nat.min_self]
      have hI := DecryptRun.reachable_inv (DecryptRun.start_inv hJ c.e.fs) ht.reachable
      obtain ⟨n, hn, htag, hwritten⟩ := hI.returned hJ hret herr.symm
      have hF : WriteThread.Filed (DecryptRun.writeParams (c.job v k)) c.e.fs t.write t.fl t.fs :=
        ht.invariant (I := fun t => WriteThread.Filed (DecryptRun.writeParams (c.job v k)) c.e.fs t.write t.fl t.fs)
          WriteThread.filed_init fun _ _ _ hF hok hstep => DecryptRun.filed_step hstep hok hF
      rw [← htake]
      refine ⟨_, decrypted_eq htf hmac hkey hJ hn htag, fun hleft => ?_⟩
      rw [← hwritten] at hleft ⊢
      rw [Controller.cleanUp, if_pos herr.symm]
      exact hF.destination hret.2.2.2 herr.symm hleft

theorem decrypted_format_sample : ∃ fs out, sampleDecryption.Ends Scrypt.pbkdf2 none fs ∧
    Format.decrypted .Skein256 ((Key.pointerTo Key.samplePassword 0).bytes 32) sampleDecryption.file = some out ∧
      fs [1] = some out := by
  have hG : sampleDecryption.Given := ⟨rfl, by decide, by decide, by decide +kernel⟩
  obtain ⟨fs, hends⟩ := sampleDecryption_ends Scrypt.pbkdf2
  obtain ⟨out, hout, hfs⟩ := decrypted_format hG rfl (fun h => absurd h (by decide)) rfl (by decide) hends
  exact ⟨fs, out, hends, hout, hfs (Nat.zero_le _)⟩

end Call

end Threefizer
